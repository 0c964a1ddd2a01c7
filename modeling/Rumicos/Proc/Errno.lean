/-
The errno values system calls return, negated as the source has them.
-/
import Mathlib.Tactic

namespace Rumicos.Proc

def eNoEnt : ℤ := -2
def eIo : ℤ := -5
def e2Big : ℤ := -7
def eNoExec : ℤ := -8
def eBadf : ℤ := -9
def eChild : ℤ := -10
def eNoMem : ℤ := -12
def eAcces : ℤ := -13
def eFault : ℤ := -14
def eInval : ℤ := -22
def eMFile : ℤ := -24
def eNoSys : ℤ := -38

end Rumicos.Proc
