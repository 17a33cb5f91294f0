import Mathlib.Tactic.NormNum

namespace Allocators

/-- The value a `size_t` keeps of a number. -/
def toSizeT (n : Nat) : Nat := n%2^64

/-- The difference of two `size_t` values. -/
def subSizeT (m n : Nat) : Nat := toSizeT (m+(2^64-n))

/-- `nearestPageSz`; `pgSz` is what `pageSize()` returned. -/
def nearestPageSz (pgSz bytes : Nat) : Nat :=
  let cnt := bytes/pgSz
  let cnt := if toSizeT (cnt*pgSz) < bytes then toSizeT (cnt+1) else cnt
  toSizeT (cnt*pgSz)

/-- The blocks of a slab, with its memory rounded up to whole pages. -/
def roundedCount (pgSz blockSize count : Nat) : Nat :=
  nearestPageSz pgSz (toSizeT (count*blockSize))/blockSize

theorem subSizeT_of_le {m n : Nat} (hn : n ≤ m) (hm : m < 2^64) : subSizeT m n=m-n := by
  rw [subSizeT,toSizeT]
  omega

/-- A block for the number that was kept is one for the number itself if nothing was cut off, and
no smaller block has room for more. -/
theorem le_iff_of_toSizeT_le {n given : Nat} (h : toSizeT n ≤ given) (hg : given < 2^64) :
    n ≤ given ↔ n < 2^64 := by
  refine ⟨fun hn => by omega,?_⟩
  intro hn
  rwa [toSizeT,Nat.mod_eq_of_lt hn] at h

structure CacheInfo where
  size : Nat
  capacity : Nat
  objectSize : Nat
  objPerSlab : Nat
  deriving DecidableEq, Repr

/-- `FindSizeT<bytes, takenBits>::bits`. -/
def findSizeT (bytes takenBits : Nat) : Nat :=
  if bytes ≤ 0xff >>> takenBits then 8
  else if bytes ≤ 0xffff >>> takenBits then 16
  else if bytes ≤ 0xffffffff >>> takenBits then 32
  else 64

theorem findSizeT_cases (bytes takenBits : Nat) :
    findSizeT bytes takenBits=8 ∨ findSizeT bytes takenBits=16 ∨
      findSizeT bytes takenBits=32 ∨ findSizeT bytes takenBits=64 := by
  unfold findSizeT
  split_ifs <;> simp

/-- The width chosen with no bit taken holds the number it was chosen for. -/
theorem lt_two_pow_findSizeT {bytes : Nat} (h : bytes < 2^64) :
    bytes < 2^findSizeT bytes 0 := by
  unfold findSizeT
  split_ifs <;> simp_all <;> omega

end Allocators
