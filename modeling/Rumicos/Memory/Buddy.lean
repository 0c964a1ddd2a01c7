/-
The buddy allocator (`BuddyNode`, `NumaBuddy` of `crates/memory/src/buddy.rs`).

One free list for each order up to MAX_ORDER. `alloc_order` takes the first block of the smallest order that has one and
pushes the halves it does not need. `free_order` computes the buddy's address but never looks for it
(`buddy_in_list` is the constant false), so nothing is merged and a block goes back to the list of the order it is freed
with. `init` cuts the usable regions of the memory map, less the excluded ranges, into blocks.

Only node 0 is ever used (`add_region_excluding` is called with node 0), so `nodes` is one optional node here. The lists
run through the frames: the operations take and return the headers (`Heap`), which the direct map makes addressable.
`none` is a failed assertion of a list operation.
-/
import Rumicos.Memory.FreeList

namespace Rumicos.Memory.Buddy

/-! ## One node -/

def maxOrder : ℕ := 10

structure BuddyNode where
  /-- the packed head of each order's list -/
  freeLists : ℕ → ℕ
  /-- the lowest address managed -/
  base : ℕ
  /-- frames managed -/
  size : ℕ
  /-- frames free, an AtomicU64 -/
  free : ℕ

def BuddyNode.new : BuddyNode := ⟨fun _ => 0, 0, 0, 0⟩

/-- a node with the headers its lists run through -/
structure Arena where
  node : BuddyNode
  mem : Heap

/-- `self.free_lists[order].push(frame)` -/
def Arena.pushTo (s : Arena) (order frame : ℕ) : Option Arena :=
  (push (s.node.freeLists order) s.mem frame).map fun r =>
    ⟨{ s.node with freeLists := Function.update s.node.freeLists order r.1 }, r.2⟩

/-- the first of `orders` whose list gives a frame -/
def Arena.popFirst (s : Arena) : List ℕ → Option (Option (ℕ × ℕ) × Arena)
  | [] => some (none, s)
  | source :: rest =>
    match pop (s.node.freeLists source) s.mem with
    | none => none
    | some (none, _) => s.popFirst rest
    | some (some frame, head) =>
      some (some (source, frame),
        ⟨{ s.node with freeLists := Function.update s.node.freeLists source head }, s.mem⟩)

/-- the upper halves, from the order below `source` down to `order` -/
def Arena.splitDown (s : Arena) (frame order source : ℕ) : Option Arena :=
  (List.range' order (source - order)).reverse.foldlM
    (fun s splitOrder => s.pushTo splitOrder (frame + 1 <<< (splitOrder + 12))) s

def Arena.allocOrder (s : Arena) (order : ℕ) : Option (Option ℕ × Arena) :=
  if order > maxOrder then some (none, s)
  else
    match s.popFirst (List.range' order (maxOrder + 1 - order)) with
    | none => none
    | some (none, s) => some (none, s)
    | some (some (source, frame), s) =>
      (s.splitDown frame order source).map fun s =>
        (some frame, { s with node := { s.node with free := (s.node.free + 2 ^ 64 - 1 <<< order) % 2 ^ 64 } })

/-- `BuddyNode::free_order`; the branch that would merge is dead -/
def Arena.freeOrder (s : Arena) (frame order : ℕ) : Option Arena :=
  if order > maxOrder then some s
  else
    (s.pushTo order frame).map fun s =>
      { s with node := { s.node with free := (s.node.free + 1 <<< order) % 2 ^ 64 } }

/-! ## The memory map -/

structure LimineMemmapEntry where
  base : ℕ
  length : ℕ
  memType : ℕ
deriving DecidableEq

structure ExclusionSet where
  bumpConsumed : ℕ × ℕ
  kernelPhysRange : ℕ × ℕ
  extraReserved : List (ℕ × ℕ)
deriving DecidableEq

def exclusionOverlap (start stop : ℕ) (reserved : ℕ × ℕ) : Option (ℕ × ℕ) :=
  let reservedStart := max reserved.1 start
  let reservedEnd := min reserved.2 stop
  if reservedStart < reservedEnd then some (reservedStart, reservedEnd) else none

/-- the ranges in the order they are looked at -/
def ExclusionSet.ranges (e : ExclusionSet) : List (ℕ × ℕ) := e.bumpConsumed :: e.kernelPhysRange :: e.extraReserved

def firstExclusionOverlap (start stop : ℕ) (e : ExclusionSet) : Option (ℕ × ℕ) :=
  e.ranges.findSome? (exclusionOverlap start stop)

theorem firstExclusionOverlap_bounds {start stop : ℕ} {e : ExclusionSet} {r : ℕ × ℕ}
    (h : firstExclusionOverlap start stop e = some r) : start ≤ r.1 ∧ r.1 < r.2 ∧ r.2 ≤ stop := by
  obtain ⟨reserved, -, hr⟩ := List.exists_of_findSome?_eq_some h
  unfold exclusionOverlap at hr
  simp only at hr
  split_ifs at hr with hlt
  cases hr
  exact ⟨le_max_right _ _, hlt, min_le_right _ _⟩

/-- the largest order up to the given one that fits at `paddr` -/
def regionOrder (paddr remaining : ℕ) : ℕ → ℕ
  | 0 => 0
  | order + 1 =>
    if 1 <<< (order + 1 + 12) ≤ remaining ∧ paddr % 1 <<< (order + 1 + 12) = 0 then order + 1
    else regionOrder paddr remaining order

/-- the loop of `add_region` -/
def Arena.addBlocks (s : Arena) (paddr stop : ℕ) : Option Arena :=
  if paddr < stop then
    let order := regionOrder paddr (stop - paddr) maxOrder
    match s.pushTo order paddr with
    | none => none
    | some s => s.addBlocks (paddr + 1 <<< (order + 12)) stop
  else some s
termination_by stop - paddr
decreasing_by
  have hpos : 0 < 1 <<< (regionOrder paddr (stop - paddr) maxOrder + 12) := by
    rw [Nat.one_shiftLeft]
    exact Nat.two_pow_pos _
  omega

structure NumaBuddy where
  /-- node 0 -/
  node : Option BuddyNode
  mem : Heap

def NumaBuddy.newUninit (mem : Heap) : NumaBuddy := ⟨none, mem⟩

/-- the bookkeeping of `add_region` -/
def BuddyNode.grow (node : BuddyNode) (base frames : ℕ) : BuddyNode :=
  { node with
    base := if node.size = 0 ∨ base < node.base then base else node.base
    size := node.size + frames
    free := (node.free + frames) % 2 ^ 64 }

/-- `add_region`; the first call creates the node -/
def NumaBuddy.addRegion (b : NumaBuddy) (base frames : ℕ) : Option NumaBuddy :=
  ((Arena.mk ((b.node.getD BuddyNode.new).grow base frames) b.mem).addBlocks base (base + frames * 4096)).map
    fun s => ⟨some s.node, s.mem⟩

def NumaBuddy.addRegionExcluding (b : NumaBuddy) (start stop : ℕ) (e : ExclusionSet) : Option NumaBuddy :=
  if start ≥ stop then some b
  else
    match h : firstExclusionOverlap start stop e with
    | some (reservedStart, reservedEnd) =>
      (if start < reservedStart then b.addRegionExcluding start reservedStart e else some b).bind fun b =>
        if reservedEnd < stop then b.addRegionExcluding reservedEnd stop e else some b
    | none =>
      let alignedBase := (start + 4095) / 4096 * 4096
      let alignedEnd := stop / 4096 * 4096
      if alignedEnd ≤ alignedBase then some b
      else b.addRegion alignedBase ((alignedEnd - alignedBase) / 4096)
termination_by stop - start
decreasing_by
  all_goals
    have hb := firstExclusionOverlap_bounds h
    simp only at hb
    omega

def NumaBuddy.init (b : NumaBuddy) (memmap : List LimineMemmapEntry) (e : ExclusionSet) : Option NumaBuddy :=
  memmap.foldlM (fun b entry =>
    if entry.memType ≠ 0 then some b
    else if entry.length = 0 then some b
    else b.addRegionExcluding entry.base (entry.base + entry.length) e) b

/-! ## The allocator's calls -/

/-- `alloc_order`, and `alloc_frame` with order 0 -/
def NumaBuddy.allocOrder (b : NumaBuddy) (order : ℕ) : Option (Option ℕ × NumaBuddy) :=
  match b.node with
  | none => some (none, b)
  | some node => ((Arena.mk node b.mem).allocOrder order).map fun r => (r.1, ⟨some r.2.node, r.2.mem⟩)

/-- `free_order` of node 0, and `free_frame` with order 0 -/
def NumaBuddy.freeOrder (b : NumaBuddy) (frame order : ℕ) : Option NumaBuddy :=
  match b.node with
  | none => none
  | some node => ((Arena.mk node b.mem).freeOrder frame order).map fun s => ⟨some s.node, s.mem⟩

/-- LOW_4G_LIMIT -/
def low4gLimit : ℕ := 0x100000000

/-- the tries of `alloc_frame_below_4g`: the frame, and the rejected ones in the order they came -/
def NumaBuddy.lowTries (b : NumaBuddy) (rejected : List ℕ) : ℕ → Option (Option ℕ × List ℕ × NumaBuddy)
  | 0 => some (none, rejected, b)
  | tries + 1 =>
    match b.allocOrder 0 with
    | none => none
    | some (none, b) => some (none, rejected, b)
    | some (some frame, b) =>
      if frame < low4gLimit then some (some frame, rejected, b) else b.lowTries (rejected ++ [frame]) tries

/-- `alloc_frame_below_4g`, with MAX_LOW_FRAME_TRIES = 256 -/
def NumaBuddy.allocFrameBelow4g (b : NumaBuddy) : Option (Option ℕ × NumaBuddy) :=
  match b.lowTries [] 256 with
  | none => none
  | some (result, rejected, b) => (rejected.foldlM (fun (b : NumaBuddy) frame => b.freeOrder frame 0) b).map fun b =>
    (result, b)

/-- a block of order `order` given back frame by frame, as `free_elf_buf` and `reap_zombie` do -/
def NumaBuddy.freeFrames (b : NumaBuddy) (base order : ℕ) : Option NumaBuddy :=
  (List.range (1 <<< order)).foldlM (fun (b : NumaBuddy) i => b.freeOrder (base + i * 4096) 0) b

end Rumicos.Memory.Buddy
