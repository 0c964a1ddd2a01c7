/-
The newc archive format: its parser (`crates/fs/src/cpio.rs`), its writer (`cpio_newc_record` of `xtask/src/main.rs`, with
any values in the fields that the parser does not read), and that the parser takes apart what the writer put together.

A member is a header of 110 bytes (the magic number and thirteen fields of eight hexadecimal digits), the name with a NUL,
padding to four bytes, the contents, and padding again. The member named `TRAILER!!!` ends the archive.

- `parseHex8`, `parseHeader`, `unpackCpio`: the parser, with its own bounds checks. `none` is a panic (a slice past the
  end), a write through a device's inode, or a loop that did not end.
- `Member.encode`, `archive`: the writer.
- `unpackCpio_archive`: the parser unpacks the members of an archive in order.
- `EndsInPadding`: the bytes that make the parser panic.
-/
import Rumicos.Fs.Inodes

namespace Rumicos.Fs

open List Option

/-! ## The parser -/

def cpioMagic : List UInt8 := [48, 55, 48, 55, 48, 49]

def cpioHeaderSize : ℕ := 110

def hexDigit (b : UInt8) : Option ℕ :=
  if 48 ≤ b ∧ b ≤ 57 then some (b.toNat - 48)
  else if 65 ≤ b ∧ b ≤ 70 then some (b.toNat - 65 + 10)
  else if 97 ≤ b ∧ b ≤ 102 then some (b.toNat - 97 + 10)
  else none

/-- `parse_hex8`, in 32 bits; 0 if a byte is no digit -/
def parseHex8 (s : List UInt8) : ℕ := (s.foldlM (fun v b => (hexDigit b).map fun d => (v * 16 + d) % 2 ^ 32) 0).getD 0

def align4 (x : ℕ) : ℕ := (x + 3) / 4 * 4

structure Entry where
  mode : ℕ
  filesize : ℕ
  namesize : ℕ
deriving DecidableEq

/-- `len` bytes from `start` on -/
def slice (d : List UInt8) (start len : ℕ) : List UInt8 := (d.drop start).take len

/-- `&d[start..start + len]`; `none` is its panic -/
def slice? (d : List UInt8) (start len : ℕ) : Option (List UInt8) :=
  if start + len ≤ d.length then some (slice d start len) else none

/-- `parse_header`, inside the `Option` of a panic -/
def parseHeader (d : List UInt8) : Option (Option Entry) :=
  if d.length < cpioHeaderSize then some none
  else
    (slice? d 0 6).bind fun magic =>
      if magic ≠ cpioMagic then some none
      else
        (slice? d 14 8).bind fun mode => (slice? d 54 8).bind fun filesize => (slice? d 94 8).map fun namesize =>
          some ⟨parseHex8 mode, parseHex8 filesize, parseHex8 namesize⟩

/-- `trim_start_matches("./")` -/
def trimStart : Name → Name
  | 46 :: 47 :: rest => trimStart rest
  | name => name

/-- what the loop does with a member -/
def Files.unpackMember (fs : Files) (name : Name) (mode : ℕ) (file : List UInt8) : Option Files :=
  if utf8Valid name = false ∨ trimStart name = [] then some fs
  else if mode &&& 0o170000 = 0o100000 then
    (fs.ensurePath (trimStart name)).bind fun r =>
      match r.2 with
      | none => some r.1
      | some v => r.1.writeFile v file
  else if mode &&& 0o170000 = 0o040000 then (fs.ensureDir (trimStart name)).map Prod.fst
  else some fs

/-- `TRAILER!!!` -/
def trailer : Name := [84, 82, 65, 73, 76, 69, 82, 33, 33, 33]

/-- the loop of `unpack_cpio`, for at most so many rounds -/
def unpackLoop (data : List UInt8) : ℕ → ℕ → Files → Option Files
  | 0, _, _ => none
  | fuel + 1, pos, fs =>
    if data.length < pos then none
    else
      (parseHeader (data.drop pos)).bind fun
        | none => some fs
        | some e =>
          let nameAt := pos + cpioHeaderSize
          let dataAt := align4 (nameAt + e.namesize)
          if data.length < nameAt + e.namesize then some fs
          else
            (slice? data nameAt (e.namesize - 1)).bind fun name =>
              if data.length < dataAt + e.filesize then some fs
              else
                (slice? data dataAt e.filesize).bind fun file =>
                  if name = trailer then some fs
                  else (fs.unpackMember name e.mode file).bind (unpackLoop data fuel (align4 (dataAt + e.filesize)))

/-- every round is a header, so the length of the data bounds their number -/
def unpackCpio (data : List UInt8) (fs : Files) : Option Files := unpackLoop data (data.length + 1) 0 fs

/-! ## The writer -/

def hexChar (lower : Bool) (d : ℕ) : UInt8 := if d < 10 then .ofNat (48 + d) else .ofNat ((if lower then 87 else 55) + d)

/-- the last `k` hexadecimal digits of a number -/
def hex (lower : Bool) : ℕ → ℕ → List UInt8
  | 0, _ => []
  | k + 1, n => hex lower k (n / 16) ++ [hexChar lower (n % 16)]

/-- a member; the fields of the header that the parser does not read are any numbers -/
structure Member where
  name : Name
  mode : ℕ
  data : List UInt8
  unread : ℕ → ℕ
  lower : Bool
  mode_lt : mode < 2 ^ 32
  name_lt : name.length + 1 < 2 ^ 32
  data_lt : data.length < 2 ^ 32

/-- the fields in their order; 1 is the mode, 6 the size of the contents, 11 that of the name -/
def Member.field (m : Member) (i : ℕ) : List UInt8 :=
  hex m.lower 8 (if i = 1 then m.mode else if i = 6 then m.data.length else if i = 11 then m.name.length + 1
    else m.unread i)

def Member.fields (m : Member) (is : List ℕ) : List UInt8 := is.flatMap m.field

def padding (n : ℕ) : List UInt8 := List.replicate (align4 n - n) 0

def Member.header (m : Member) : List UInt8 := cpioMagic ++ m.fields (List.range 13)

def Member.encode (m : Member) : List UInt8 :=
  m.header ++ (m.name ++ [0] ++ padding (cpioHeaderSize + m.name.length + 1)) ++ (m.data ++ padding m.data.length)

def trailerMember : Member := ⟨trailer, 0, [], fun _ => 0, false, by decide, by decide, by decide⟩

/-- the members, the trailer, and whatever stands behind it -/
def archive (ms : List Member) (rest : List UInt8) : List UInt8 := ms.flatMap Member.encode ++ trailerMember.encode ++ rest

/-- the members in order, up to one named like the trailer -/
def Files.unpackMembers : List Member → Files → Option Files
  | [], fs => some fs
  | m :: ms, fs =>
    if m.name = trailer then some fs else (fs.unpackMember m.name m.mode m.data).bind (Files.unpackMembers ms)

/-! ## Headers -/

theorem hexDigit_hexChar (lower : Bool) {d : ℕ} (hd : d < 16) : hexDigit (hexChar lower d) = some d := by
  have hall : ∀ (lower : Bool) (d : Fin 16), hexDigit (hexChar lower d) = some d.val := by decide
  exact hall lower ⟨d, hd⟩

theorem length_hex (lower : Bool) (k n : ℕ) : (hex lower k n).length = k := by
  induction k generalizing n with
  | zero => rfl
  | succ k ih => rw [hex, length_append, ih, length_singleton]

theorem parse_hex (lower : Bool) (k n : ℕ) (hk : k ≤ 8) (hn : n < 16 ^ k) :
    (hex lower k n).foldlM (fun v b => (hexDigit b).map fun d => (v * 16 + d) % 2 ^ 32) 0 = some n := by
  induction k generalizing n with
  | zero =>
    obtain rfl : n = 0 := by simpa using hn
    rfl
  | succ k ih =>
    have hdiv : n / 16 < 16 ^ k := Nat.div_lt_of_lt_mul (by rwa [pow_succ'] at hn)
    have hle : 16 ^ (k + 1) ≤ 16 ^ 8 := Nat.pow_le_pow_right (by decide) hk
    have hmod : (n / 16 * 16 + n % 16) % 2 ^ 32 = n := by omega
    have hdigit := hexDigit_hexChar lower (Nat.mod_lt n (by decide : 0 < 16))
    rw [hex, foldlM_append, ih _ (by omega) hdiv]
    change ((hexDigit (hexChar lower (n % 16))).map fun d => (n / 16 * 16 + d) % 2 ^ 32) >>= pure = some n
    rw [hdigit, map_some, hmod]
    rfl

theorem parseHex8_hex (lower : Bool) {n : ℕ} (hn : n < 2 ^ 32) : parseHex8 (hex lower 8 n) = n := by
  rw [parseHex8, parse_hex lower 8 n le_rfl (by omega), getD_some]

theorem slice_append {a b c : List UInt8} {i j : ℕ} (ha : a.length = i) (hb : b.length = j) :
    slice (a ++ (b ++ c)) i j = b := by
  rw [slice, drop_left' ha, take_left' hb]

theorem Member.length_field (m : Member) (i : ℕ) : (m.field i).length = 8 := length_hex _ _ _

theorem Member.length_fields (m : Member) (is : List ℕ) : (m.fields is).length = 8 * is.length := by
  induction is with
  | nil => rfl
  | cons i is ih =>
    rw [fields, flatMap_cons, length_append, length_cons]
    change 8 + (m.fields is).length = _
    omega

theorem Member.length_header (m : Member) : m.header.length = cpioHeaderSize := by
  rw [header, length_append, length_fields]
  rfl

theorem Member.slice_header (m : Member) (is : List ℕ) (i : ℕ) (js : List ℕ) (h : List.range 13 = is ++ i :: js)
    (d : List UInt8) :
    slice (m.header ++ d) (6 + 8 * is.length) 8 = m.field i := by
  have hsplit : m.header ++ d = (cpioMagic ++ m.fields is) ++ (m.field i ++ (m.fields js ++ d)) := by
    simp [header, fields, h]
  rw [hsplit]
  exact slice_append (by rw [length_append, length_fields]; rfl) (m.length_field i)

/-- the header of the first member -/
def entryOf (d : List UInt8) : Option Entry :=
  if d.length < cpioHeaderSize ∨ slice d 0 6 ≠ cpioMagic then none
  else some ⟨parseHex8 (slice d 14 8), parseHex8 (slice d 54 8), parseHex8 (slice d 94 8)⟩

theorem parseHeader_eq (d : List UInt8) : parseHeader d = some (entryOf d) := by
  rw [parseHeader, entryOf]
  by_cases hlen : d.length < cpioHeaderSize
  · rw [if_pos hlen, if_pos (.inl hlen)]
  · unfold cpioHeaderSize at hlen
    have hin : ∀ i n, i + n ≤ 110 → slice? d i n = some (slice d i n) := fun i n h => if_pos (by omega)
    simp only [cpioHeaderSize, hlen, if_false, false_or, hin _ _ (by decide : 0 + 6 ≤ 110),
      hin _ _ (by decide : 14 + 8 ≤ 110),
      hin _ _ (by decide : 54 + 8 ≤ 110), hin _ _ (by decide : 94 + 8 ≤ 110), bind_some, map_some]
    split_ifs <;> rfl

theorem entryOf_header (m : Member) (d : List UInt8) :
    entryOf (m.header ++ d) = some ⟨m.mode, m.data.length, m.name.length + 1⟩ := by
  have hlen : ¬ (m.header ++ d).length < cpioHeaderSize := by
    rw [length_append, m.length_header]
    omega
  have hmagic : slice (m.header ++ d) 0 6 = cpioMagic := by
    rw [Member.header, append_assoc]
    exact take_left' rfl
  rw [entryOf, if_neg (not_or.2 ⟨hlen, not_not.2 hmagic⟩)]
  have h1 := m.slice_header [0] 1 [2, 3, 4, 5, 6, 7, 8, 9, 10, 11, 12] rfl d
  have h6 := m.slice_header [0, 1, 2, 3, 4, 5] 6 [7, 8, 9, 10, 11, 12] rfl d
  have h11 := m.slice_header [0, 1, 2, 3, 4, 5, 6, 7, 8, 9, 10] 11 [12] rfl d
  simp only [length_cons, length_nil] at h1 h6 h11
  rw [h1, h6, h11, Member.field, Member.field, Member.field]
  simp only [if_true, if_neg (by decide : ¬ 6 = 1), if_neg (by decide : ¬ 11 = 1), if_neg (by decide : ¬ 11 = 6)]
  rw [parseHex8_hex _ m.mode_lt, parseHex8_hex _ m.data_lt, parseHex8_hex _ m.name_lt]

/-! ## Framing -/

theorem align4_add {a : ℕ} (ha : a % 4 = 0) (n : ℕ) : align4 (a + n) = a + align4 n := by
  unfold align4
  omega

theorem align4_mod (n : ℕ) : align4 n % 4 = 0 := Nat.mul_mod_left _ _

theorem le_align4 (n : ℕ) : n ≤ align4 n := by
  unfold align4
  omega

/-- the header with the name, padded -/
def Member.named (m : Member) : List UInt8 := m.header ++ (m.name ++ [0] ++ padding (cpioHeaderSize + m.name.length + 1))

theorem Member.length_named (m : Member) : m.named.length = align4 (cpioHeaderSize + m.name.length + 1) := by
  have hle := le_align4 (cpioHeaderSize + m.name.length + 1)
  simp only [named, length_append, m.length_header, padding, length_replicate, length_singleton]
  omega

theorem Member.length_encode (m : Member) :
    m.encode.length = align4 (cpioHeaderSize + m.name.length + 1) + align4 m.data.length := by
  have hle := le_align4 m.data.length
  change (m.named ++ _).length = _
  simp only [length_append, m.length_named, padding, length_replicate]
  omega

/-- where the contents start and end, from the header on -/
def Entry.dataAt (e : Entry) : ℕ := align4 (cpioHeaderSize + e.namesize)
def Entry.stop (e : Entry) : ℕ := e.dataAt + e.filesize

theorem Entry.le_stop (e : Entry) : cpioHeaderSize + e.namesize ≤ e.stop := (le_align4 _).trans (Nat.le_add_right _ _)

/-- the member that a round takes from the head of the bytes: its header and its name -/
def firstMember (d : List UInt8) : Option (Entry × Name) :=
  (entryOf d).bind fun e =>
    if d.length < e.stop ∨ slice d cpioHeaderSize (e.namesize - 1) = trailer then none
    else some (e, slice d cpioHeaderSize (e.namesize - 1))

/-- **One round**, at a multiple of four -/
theorem unpackLoop_succ (pre d : List UInt8) (hpre : pre.length % 4 = 0) (fuel : ℕ) (fs : Files) :
    unpackLoop (pre ++ d) (fuel + 1) pre.length fs =
      (firstMember d).elim (some fs) fun x => (fs.unpackMember x.2 x.1.mode (slice d x.1.dataAt x.1.filesize)).bind
        (unpackLoop (pre ++ d) fuel (pre.length + align4 x.1.stop)) := by
  have hslice : ∀ i n, i + n ≤ d.length → slice? (pre ++ d) (pre.length + i) n = some (slice d i n) := by
    intro i n h
    rw [slice?, if_pos (by rw [length_append]; omega), slice, slice, ← drop_drop, drop_left]
  rw [unpackLoop, if_neg (by simp), drop_left, parseHeader_eq, bind_some, firstMember]
  cases entryOf d with
  | none => rfl
  | some e =>
    have hstop := e.le_stop
    have hdataAt : align4 (pre.length + cpioHeaderSize + e.namesize) = pre.length + e.dataAt := by
      rw [Nat.add_assoc, align4_add hpre, Entry.dataAt]
    have hnext : align4 (pre.length + e.dataAt + e.filesize) = pre.length + align4 e.stop := by
      rw [Nat.add_assoc, align4_add hpre, Entry.stop]
    simp only [bind_some, length_append, hdataAt, hnext]
    by_cases hlen : d.length < e.stop
    · rw [if_pos (show d.length < e.stop ∨ _ from .inl hlen)]
      by_cases hname : pre.length + d.length < pre.length + cpioHeaderSize + e.namesize
      · rw [if_pos hname]
        rfl
      · rw [if_neg hname, hslice _ _ (by omega), bind_some, if_pos (by unfold Entry.stop at hlen; omega)]
        rfl
    · rw [if_neg (by omega), hslice _ _ (by omega), bind_some, if_neg (by unfold Entry.stop at hlen; omega),
        hslice _ _ (by unfold Entry.stop at hlen; omega), bind_some]
      by_cases htrailer : slice d cpioHeaderSize (e.namesize - 1) = trailer
      · rw [if_pos htrailer, if_pos (.inr htrailer)]
        rfl
      · rw [if_neg htrailer, if_neg (not_or.2 ⟨hlen, htrailer⟩)]
        rfl

theorem firstMember_encode (m : Member) (post : List UInt8) : firstMember (m.encode ++ post) =
    if m.name = trailer then none else some (⟨m.mode, m.data.length, m.name.length + 1⟩, m.name) := by
  have hentry : entryOf (m.encode ++ post) = some ⟨m.mode, m.data.length, m.name.length + 1⟩ := by
    rw [Member.encode, append_assoc, append_assoc]
    exact entryOf_header m _
  have hname : slice (m.encode ++ post) cpioHeaderSize m.name.length = m.name := by
    have hsplit : m.encode ++ post = m.header ++ (m.name ++ ([0] ++ padding (cpioHeaderSize + m.name.length + 1) ++
        (m.data ++ padding m.data.length) ++ post)) := by
      simp [Member.encode]
    rw [hsplit]
    exact slice_append m.length_header rfl
  have hle := le_align4 m.data.length
  rw [firstMember, hentry, bind_some]
  simp only [Nat.add_sub_cancel, hname, Entry.stop, Entry.dataAt, length_append, m.length_encode, Nat.add_assoc,
    if_congr (or_iff_right (show ¬ align4 (cpioHeaderSize + (m.name.length + 1)) + (align4 m.data.length + post.length) <
      align4 (cpioHeaderSize + (m.name.length + 1)) + m.data.length by omega)) rfl rfl]

theorem unpackLoop_member (m : Member) (pre post : List UInt8) (hpre : pre.length % 4 = 0) (fuel : ℕ) (fs : Files) :
    unpackLoop (pre ++ (m.encode ++ post)) (fuel + 1) pre.length fs =
      if m.name = trailer then some fs
      else (fs.unpackMember m.name m.mode m.data).bind
        (unpackLoop (pre ++ (m.encode ++ post)) fuel (pre ++ m.encode).length) := by
  have hdata : slice (m.encode ++ post) (align4 (cpioHeaderSize + (m.name.length + 1))) m.data.length = m.data := by
    have hsplit : m.encode ++ post = m.named ++ (m.data ++ (padding m.data.length ++ post)) := by
      simp [Member.encode, Member.named]
    rw [hsplit]
    exact slice_append m.length_named rfl
  have hnext : align4 (align4 (cpioHeaderSize + (m.name.length + 1)) + m.data.length) = m.encode.length := by
    rw [align4_add (align4_mod _), m.length_encode]
    rfl
  rw [unpackLoop_succ pre _ hpre, firstMember_encode]
  split_ifs with h
  · rfl
  · simp only [elim_some, Entry.stop, Entry.dataAt, hdata, hnext, length_append]

theorem unpackLoop_archive (ms : List Member) (rest pre : List UInt8) (hpre : pre.length % 4 = 0) (fuel : ℕ)
    (hfuel : ms.length < fuel)
    (fs : Files) : unpackLoop (pre ++ archive ms rest) fuel pre.length fs = fs.unpackMembers ms := by
  obtain ⟨fuel, rfl⟩ : ∃ k, fuel = k + 1 := ⟨fuel - 1, by omega⟩
  induction ms generalizing pre fuel fs with
  | nil =>
    rw [archive, flatMap_nil, nil_append, unpackLoop_member trailerMember pre rest hpre]
    exact if_pos rfl
  | cons m ms ih =>
    have hsplit : archive (m :: ms) rest = m.encode ++ archive ms rest := by simp [archive]
    have hmod : (pre ++ m.encode).length % 4 = 0 := by
      have h1 := align4_mod (cpioHeaderSize + m.name.length + 1)
      have h2 := align4_mod m.data.length
      rw [length_append, m.length_encode]
      omega
    obtain ⟨fuel, rfl⟩ : ∃ k, fuel = k + 1 := ⟨fuel - 1, by simp at hfuel; omega⟩
    rw [hsplit, unpackLoop_member m pre _ hpre]
    congr 1
    apply congrArg
    funext fs'
    rw [← append_assoc]
    exact ih (pre ++ m.encode) hmod fs' fuel (by simpa using hfuel)

theorem length_le_archive (ms : List Member) (rest : List UInt8) : ms.length ≤ (archive ms rest).length := by
  have hpos : ∀ m : Member, 1 ≤ m.encode.length := by
    intro m
    have h1 := le_align4 (cpioHeaderSize + m.name.length + 1)
    rw [m.length_encode]
    omega
  have hflat : ms.length ≤ (ms.flatMap Member.encode).length := by
    induction ms with
    | nil => exact Nat.zero_le _
    | cons m ms ih =>
      have := hpos m
      simp only [flatMap_cons, length_append, length_cons]
      omega
  simp only [archive, length_append]
  omega

/-- **Framing.** Unpacking an archive is unpacking its members, in order, up to one named like the trailer. -/
theorem unpackCpio_archive (ms : List Member) (rest : List UInt8) (fs : Files) :
    unpackCpio (archive ms rest) fs = fs.unpackMembers ms :=
  unpackLoop_archive ms rest [] rfl _ (Nat.lt_succ_of_le (length_le_archive ms rest)) fs

/-! ## Any data -/

variable {d r : List UInt8} {e : Entry} {name : Name} {fs fs' : Files}

theorem firstMember_eq_some_iff : firstMember d = some (e, name) ↔
    entryOf d = some e ∧ e.stop ≤ d.length ∧ slice d cpioHeaderSize (e.namesize - 1) = name ∧ name ≠ trailer := by
  rw [firstMember, bind_eq_some_iff]
  constructor
  · rintro ⟨e', he, h⟩
    split_ifs at h with hno
    obtain ⟨hstop, hname⟩ := not_or.1 hno
    cases h
    exact ⟨he, not_lt.1 hstop, rfl, hname⟩
  · rintro ⟨he, hstop, rfl, hname⟩
    exact ⟨e, he, if_neg (not_or.2 ⟨not_lt.2 hstop, hname⟩)⟩

/-- a member is read from its own bytes alone -/
theorem firstMember_append_iff (rest : List UInt8) (hstop : e.stop ≤ r.length) :
    firstMember (r ++ rest) = some (e, name) ↔ firstMember r = some (e, name) := by
  have hle := e.le_stop
  have hslice : ∀ i n, i + n ≤ e.stop → slice (r ++ rest) i n = slice r i n := by
    intro i n hin
    rw [slice, drop_append_of_le_length (by omega), take_append_of_le_length (by rw [length_drop]; omega), slice]
  have hentry : entryOf (r ++ rest) = entryOf r := by
    unfold cpioHeaderSize at hle
    simp only [entryOf, hslice 0 6 (by omega), hslice 14 8 (by omega), hslice 54 8 (by omega), hslice 94 8 (by omega),
      length_append, cpioHeaderSize]
    exact if_congr (or_congr_left (by omega)) rfl rfl
  rw [firstMember_eq_some_iff, firstMember_eq_some_iff, hentry, hslice _ _ (by omega), length_append]
  exact and_congr_right fun _ => and_congr_left fun _ => by omega

/-- one member, with its padding -/
def Whole (r : List UInt8) : Prop := ∃ e name, firstMember r = some (e, name) ∧ r.length = align4 e.stop

/-- one member whose padding is cut off -/
def CutInPadding (r : List UInt8) : Prop := ∃ e name, firstMember r = some (e, name) ∧ r.length < align4 e.stop

/-- whole members, and one whose padding is cut off -/
def EndsInPadding (data : List UInt8) : Prop :=
  ∃ (rs : List (List UInt8)) (last : List UInt8), data = rs.flatten ++ last ∧ (∀ r ∈ rs, Whole r) ∧ CutInPadding last

theorem CutInPadding.firstMember (h : CutInPadding d) (h' : firstMember d = some (e, name)) :
    d.length < align4 e.stop := by
  obtain ⟨_, _, h, hcut⟩ := h
  cases h.symm.trans h'
  exact hcut

/-- taking the first member off, when its padding is there -/
theorem endsInPadding_append_iff {rest : List UInt8} (h : Fs.firstMember r = some (e, name))
    (hlen : r.length = align4 e.stop) :
    EndsInPadding (r ++ rest) ↔ EndsInPadding rest := by
  have hle := le_align4 e.stop
  constructor
  · rintro ⟨rs, last, hd, hrs, hlast⟩
    have hfirst := (firstMember_append_iff rest (by omega)).2 h
    cases rs with
    | nil =>
      have hcut := CutInPadding.firstMember (d := r ++ rest) (hd ▸ hlast) hfirst
      rw [length_append] at hcut
      omega
    | cons r' rs =>
      obtain ⟨e', name', h', hlen'⟩ := hrs r' mem_cons_self
      rw [flatten_cons, append_assoc] at hd
      have hsame := (firstMember_append_iff (rs.flatten ++ last) (hlen' ▸ le_align4 _)).2 h'
      cases (hd ▸ hfirst).symm.trans hsame
      obtain ⟨-, rfl⟩ := append_inj hd (hlen.trans hlen'.symm)
      exact ⟨rs, last, rfl, fun x hx => hrs x (mem_cons_of_mem r' hx), hlast⟩
  · rintro ⟨rs, last, rfl, hrs, hlast⟩
    refine ⟨r :: rs, last, by rw [flatten_cons, append_assoc], fun x hx => ?_, hlast⟩
    rcases mem_cons.1 hx with rfl | hx
    · exact ⟨e, name, h, hlen⟩
    · exact hrs x hx

theorem EndsInPadding.ne_none (h : EndsInPadding d) : firstMember d ≠ none := by
  obtain ⟨rs, last, rfl, hrs, e, name, hlast, -⟩ := h
  cases rs with
  | nil => exact ne_none_iff_exists'.2 ⟨_, hlast⟩
  | cons r rs =>
    obtain ⟨e', name', h, hlen⟩ := hrs r mem_cons_self
    rw [flatten_cons, append_assoc, (firstMember_append_iff _ (hlen ▸ le_align4 _)).2 h]
    exact nofun

/-- a tree without devices, whose entries lead to its vnodes -/
structure Files.Plain (fs : Files) : Prop where
  root : fs.root < fs.vnodes.length
  inode : ∀ v < fs.vnodes.length, ∃ ino, fs.inode v = some ino ∧ ∀ x ∈ ino.children, x.2 < fs.vnodes.length

theorem plain_new : Files.new.Plain :=
  ⟨Nat.one_pos, fun v hv => ⟨.new .directory, by obtain rfl : v = 0 := Nat.lt_one_iff.1 hv; rfl, by simp [Inode.new]⟩⟩

theorem plain_writeFile (h : fs.Plain) {v : ℕ} (hv : v < fs.vnodes.length) (file : List UInt8) :
    ∃ fs', fs.writeFile v file = some fs' ∧ fs'.Plain := by
  obtain ⟨ino, hino, hch⟩ := h.inode v hv
  have hlen : (fs.setInode v (ino.writeFile file)).vnodes.length = fs.vnodes.length := length_set
  refine ⟨_, by rw [Files.writeFile, hino, map_some], hlen ▸ h.root, fun u hu => ?_⟩
  rw [hlen] at hu ⊢
  rw [Files.inode_setInode hino]
  split_ifs
  · exact ⟨_, rfl, hch⟩
  · exact h.inode u hu

theorem plain_lookupOrCreate (h : fs.Plain) {dir : ℕ} (hdir : dir < fs.vnodes.length) (name : Name) (vtype : VNodeType) :
    ∃ fs' v, fs.lookupOrCreate dir name vtype = some (fs', v) ∧ fs'.Plain ∧ v < fs'.vnodes.length := by
  obtain ⟨ino, hino, hch⟩ := h.inode dir hdir
  unfold Files.lookupOrCreate
  cases hl : fs.lookup dir name with
  | some v =>
    refine ⟨fs, v, rfl, h, ?_⟩
    rw [Files.lookup, hino, bind_some, Inode.lookup] at hl
    split_ifs at hl
    obtain ⟨x, hx, rfl⟩ := map_eq_some_iff.1 hl
    exact hch x (mem_of_find?_eq_some hx)
  | none =>
    obtain ⟨fs', hfs'⟩ : ∃ fs', fs.createChild dir name vtype = some (fs', fs.vnodes.length) := by
      rw [Files.createChild, Files.addNew, hino]
      exact ⟨_, rfl⟩
    obtain ⟨-, hc⟩ := created_createChild hfs'
    refine ⟨fs', _, hfs', ⟨?_, fun v hv => ?_⟩, by rw [hc.length]; omega⟩
    · rw [hc.root, hc.length]
      exact h.root.trans (Nat.lt_succ_self _)
    · rw [hc.length] at hv ⊢
      by_cases hd : v = dir
      · refine ⟨_, hd ▸ hc.parent ino hino, fun x hx => ?_⟩
        unfold Inode.addChild at hx
        split_ifs at hx
        · exact (hch x hx).trans (Nat.lt_succ_self _)
        · rcases mem_append.1 hx with hx | hx
          · exact (hch x hx).trans (Nat.lt_succ_self _)
          · obtain rfl := mem_singleton.1 hx
            exact Nat.lt_succ_self _
      · by_cases hlast : v = fs.vnodes.length
        · exact ⟨_, hlast ▸ hc.child, by simp [Inode.new]⟩
        · obtain ⟨old, hold, hin⟩ := h.inode v (by omega)
          exact ⟨old, (hc.other v hd (by omega)).trans hold, fun x hx => (hin x hx).trans (Nat.lt_succ_self _)⟩

theorem plain_ensureDir (h : fs.Plain) (parts : List Name) {cur : ℕ} (hcur : cur < fs.vnodes.length) :
    ∃ r, fs.ensureDirFrom cur parts = some r ∧ r.1.Plain := by
  induction parts generalizing fs cur with
  | nil => exact ⟨_, rfl, h⟩
  | cons part rest ih =>
    rw [Files.ensureDirFrom]
    split_ifs
    · exact ih h hcur
    · obtain ⟨fs', v, hc, h', hv⟩ := plain_lookupOrCreate h hcur part .directory
      rw [hc, bind_some]
      exact ih h' hv

theorem plain_ensurePath (h : fs.Plain) (parts : List Name) {dir : ℕ} (hdir : dir < fs.vnodes.length) :
    ∃ r, fs.ensurePathFrom dir parts = some r ∧ r.1.Plain ∧ ∀ v, r.2 = some v → v < r.1.vnodes.length := by
  induction parts generalizing fs dir with
  | nil => exact ⟨_, rfl, h, nofun⟩
  | cons part rest ih =>
    obtain ⟨fs', v, hc, h', hv⟩ := plain_lookupOrCreate h hdir part (if rest = [] then .regular else .directory)
    cases rest with
    | nil =>
      rw [Files.ensurePathFrom]
      split_ifs
      · exact ⟨_, rfl, h, nofun⟩
      · rw [show fs.lookupOrCreate dir part .regular = some (fs', v) from hc, map_some]
        refine ⟨_, rfl, h', fun u hu => ?_⟩
        cases hu
        exact hv
    | cons next rest =>
      rw [Files.ensurePathFrom]
      · split_ifs
        · exact ih h hdir
        · rw [show fs.lookupOrCreate dir part .directory = some (fs', v) from hc, bind_some]
          exact ih h' hv
      · exact nofun

/-- on a tree without devices a member is unpacked whatever it says -/
theorem plain_unpackMember (h : fs.Plain) (name : Name) (mode : ℕ) (file : List UInt8) :
    ∃ fs', fs.unpackMember name mode file = some fs' ∧ fs'.Plain := by
  unfold Files.unpackMember
  split_ifs
  · exact ⟨fs, rfl, h⟩
  · obtain ⟨⟨fs', v⟩, hr, h', hv⟩ := plain_ensurePath h ((trimStart name).splitOn slash) h.root
    rw [Files.ensurePath, hr, bind_some]
    cases v with
    | none => exact ⟨fs', rfl, h'⟩
    | some v => exact plain_writeFile h' (hv v rfl) file
  · obtain ⟨r, hr, h'⟩ := plain_ensureDir h ((trimStart name).splitOn slash) h.root
    rw [Files.ensureDir, hr]
    exact ⟨_, rfl, h'⟩
  · exact ⟨fs, rfl, h⟩

/-- the loop from a multiple of four on, by induction on the bytes left: each round takes a header off at least -/
theorem unpackLoop_ends (n : ℕ) : ∀ (pre d : List UInt8) (fs : Files), d.length = n → pre.length % 4 = 0 → fs.Plain →
    ∃ res : Option Files, (∀ rounds, d.length < cpioHeaderSize * rounds →
    unpackLoop (pre ++ d) rounds pre.length fs = res) ∧
      (res.isSome = true ↔ ¬ EndsInPadding d) := by
  induction n using Nat.strong_induction_on with
  | _ n ih =>
  intro pre d fs hn hpre hfs
  have hpos : ∀ rounds, d.length < cpioHeaderSize * rounds → ∃ k, rounds = k + 1 :=
    fun rounds h => ⟨rounds - 1, by unfold cpioHeaderSize at h; omega⟩
  cases hfirst : firstMember d with
  | none =>
    refine ⟨some fs, fun rounds h => ?_, iff_of_true rfl fun h => h.ne_none hfirst⟩
    obtain ⟨k, rfl⟩ := hpos rounds h
    rw [unpackLoop_succ pre d hpre, hfirst]
    rfl
  | some x =>
    obtain ⟨e, name⟩ := x
    obtain ⟨-, hstop, -⟩ := firstMember_eq_some_iff.1 hfirst
    obtain ⟨fs', hfs', hplain⟩ := plain_unpackMember hfs name e.mode (slice d e.dataAt e.filesize)
    have hle := le_align4 e.stop
    have hheader := e.le_stop
    have hround : ∀ k, unpackLoop (pre ++ d) (k + 1) pre.length fs =
        unpackLoop (pre ++ d) k (pre.length + align4 e.stop) fs' := by
      intro k
      rw [unpackLoop_succ pre d hpre, hfirst, elim_some, hfs', bind_some]
    unfold cpioHeaderSize at hheader
    by_cases hcut : d.length < align4 e.stop
    · -- the next slice starts past the end
      refine ⟨none, fun rounds h => ?_, iff_of_false nofun (not_not.2 ⟨[], d, rfl, nofun, e, name, hfirst, hcut⟩)⟩
      obtain ⟨k, rfl⟩ : ∃ k, rounds = k + 1 + 1 := ⟨rounds - 2, by unfold cpioHeaderSize at h; omega⟩
      rw [hround, unpackLoop, if_pos (by rw [length_append]; omega)]
    · obtain ⟨r, rest, rfl, hr⟩ : ∃ r rest, d = r ++ rest ∧ r.length = align4 e.stop :=
        ⟨d.take (align4 e.stop), d.drop (align4 e.stop), (take_append_drop ..).symm, length_take_of_le (not_lt.1 hcut)⟩
      have hmod := align4_mod e.stop
      obtain ⟨res, hres, hiff⟩ := ih rest.length (by rw [length_append] at hn; omega) (pre ++ r) rest fs' rfl
        (by rw [length_append]; omega) hplain
      refine ⟨res, fun rounds h => ?_, ?_⟩
      · obtain ⟨k, rfl⟩ := hpos rounds h
        rw [hround, ← hr, ← length_append, ← append_assoc]
        exact hres k (by rw [length_append] at h; unfold cpioHeaderSize at *; omega)
      · rwa [endsInPadding_append_iff ((firstMember_append_iff rest (by omega)).1 hfirst) hr]

/-- **Any slice of bytes.** Every round takes a header off, so no more rounds are made than headers fit in the data. The
loop ends and nothing is read outside the data, exactly if the data does not end inside the padding of a member. -/
theorem unpack_safe_iff (data : List UInt8) :
    (∀ rounds, data.length < cpioHeaderSize * rounds →
      unpackLoop data rounds 0 Files.new = unpackCpio data Files.new) ∧
    ((unpackCpio data Files.new).isSome = true ↔ ¬ EndsInPadding data) := by
  obtain ⟨res, hres, hiff⟩ := unpackLoop_ends data.length [] data Files.new rfl rfl plain_new
  have hcpio : unpackCpio data Files.new = res := hres _ (by unfold cpioHeaderSize; omega)
  rw [hcpio]
  exact ⟨hres, hiff⟩

/-- a file of one byte, without the padding and the trailer -/
theorem cut_archive_panics : ∃ m : Member, unpackCpio (m.encode.take 113) Files.new = none ∧
    EndsInPadding (m.encode.take 113) := by
  refine ⟨⟨[97], 0o100644, [120], fun _ => 0,
    false, by decide, by decide, by decide⟩, by decide +kernel, [], _, rfl, nofun,
    ⟨0o100644, 1, 2⟩, [97], ?_, by decide +kernel⟩
  decide +kernel

end Rumicos.Fs
