import Allocators.FreeList.Entries
import Allocators.Lib.Run

/-! The free list together with its client: which pointers are live, and the runs of both. -/

namespace Allocators.FreeList

open Lib

/-- What a client does: the calls of `FreeList`, and a store into one of its blocks. -/
inductive Call
  | allocate (sizeofT count : Nat)
  | deallocate (ptr : Nat)
  | freeAll
  | write (ptr offset : Nat) (byte : UInt8)
  deriving DecidableEq

inductive Reply
  | pointer (offset : Nat)
  | badAlloc
  | done
  deriving DecidableEq, Repr

/-- The allocator and the pointers handed out and not given back. -/
structure Arena (S : Type) where
  itf : PolicyInterface S
  live : List Nat

namespace Arena

variable (bytes : Nat) {S : Type} [Storage S]

def fresh (memory : Memory) : Arena S := ⟨PolicyInterface.make bytes memory,[]⟩

def availible (a : Arena S) : List Entry := Storage.entries a.itf.availible

/-- The user bytes of a block, as its header records them. -/
def userBytes (a : Arena S) (ptr : Nat) : Nat := a.itf.headerAt bytes (ptr-headerSize bytes)

/-- A live block from its header to its last user byte. -/
def block (a : Arena S) (ptr : Nat) : Extent :=
  (ptr-headerSize bytes,headerSize bytes+userBytes bytes a ptr)

def blocks (a : Arena S) : List Extent := a.live.map (block bytes a)

/-- One call; only a live pointer is given back, and a client writes only into its own bytes. -/
def serve (a : Arena S) : Call → Option (Arena S × Reply)
  | .allocate sizeofT count =>
    match a.itf.allocate bytes sizeofT count with
    | none => some (a,.badAlloc)
    | some (itf,ptr) => some (⟨itf,ptr :: a.live⟩,.pointer ptr)
  | .deallocate ptr =>
    if ptr ∈ a.live then some (⟨a.itf.deallocate bytes ptr,a.live.erase ptr⟩,.done) else none
  | .freeAll => some (⟨a.itf.freeAll bytes,[]⟩,.done)
  | .write ptr offset byte =>
    if ptr ∈ a.live ∧ offset < userBytes bytes a ptr then
      some ({ a with itf.memory := a.itf.memory.writeByte (ptr+offset) byte },.done)
    else none

/-- The replies to a list of calls and the state after them. -/
def session (a : Arena S) : List Call → Option (List Reply × Arena S)
  | [] => some ([],a)
  | c :: cs =>
    match serve bytes a c with
    | none => none
    | some (a,r) => (session a cs).map fun (rs,a) => (r :: rs,a)

/-- The runs in which every call is one of those allowed. -/
def machine (allowed : Call → Prop) [DecidablePred allowed] : Machine (Arena S) Call where
  start a := ∃ memory, a=fresh bytes memory
  next a c := if allowed c then (serve bytes a c).map Prod.fst else none

end Arena

/-- A call whose request, header included, is not larger than the arena. -/
def Call.Fits (bytes : Nat) : Call → Prop
  | .allocate sizeofT count => 0 < sizeofT ∧ sizeofT*count+headerSize bytes ≤ bytes
  | _ => True

instance (bytes : Nat) : DecidablePred (Call.Fits bytes)
  | .allocate _ _ => inferInstanceAs (Decidable (_ ∧ _))
  | .deallocate _ => inferInstanceAs (Decidable True)
  | .freeAll => inferInstanceAs (Decidable True)
  | .write _ _ _ => inferInstanceAs (Decidable True)

/-- `FreeList` rejects arenas that are not larger than a header and a byte. -/
def ValidSize (bytes : Nat) : Prop := headerSize bytes+1 < bytes ∧ bytes < 2^64

instance (bytes : Nat) : Decidable (ValidSize bytes) := inferInstanceAs (Decidable (_ ∧ _))

section Request

variable {bytes : Nat}

theorem headerSize_pos (bytes : Nat) : 0 < headerSize bytes := by
  unfold headerSize sizeBits
  rcases findSizeT_cases bytes 0 with h | h | h | h <;> simp [h]

theorem two_pow_sizeBits (bytes : Nat) : 2^sizeBits bytes=256^headerSize bytes := by
  unfold headerSize sizeBits
  rcases findSizeT_cases bytes 0 with h | h | h | h <;> simp [h]

theorem sizeBits_le (bytes : Nat) : sizeBits bytes ≤ 64 := by
  unfold sizeBits
  rcases findSizeT_cases bytes 0 with h | h | h | h <;> simp [h]

theorem ValidSize.lt (h : ValidSize bytes) : bytes < 2^sizeBits bytes := lt_two_pow_findSizeT h.2

theorem toSizeType_of_lt {n : Nat} (h : n < 2^sizeBits bytes) : toSizeType bytes n=n :=
  Nat.mod_eq_of_lt h

/-- A `size_type` difference of two values of the type. -/
theorem toSizeType_sub {m n : Nat} (hm : m < 2^sizeBits bytes) (hn : n ≤ m) :
    toSizeType bytes (m+2^64-n)=m-n := by
  have hd : 2^sizeBits bytes ∣ 2^64 := pow_dvd_pow 2 (sizeBits_le bytes)
  have he : m+2^64-n=(m-n)+2^64 := by omega
  rw [toSizeType,he,Nat.add_mod,Nat.mod_eq_zero_of_dvd hd,Nat.add_zero,Nat.mod_mod,
    Nat.mod_eq_of_lt (by omega)]

/-- A request that fits is computed without wrapping. -/
theorem reqBytes_of_fits (hv : ValidSize bytes) {sizeofT count : Nat} (ht : 0 < sizeofT)
    (hf : sizeofT*count+headerSize bytes ≤ bytes) :
    PolicyInterface.reqBytes bytes sizeofT count=sizeofT*count+headerSize bytes := by
  have hb := hv.lt
  have hc : count ≤ sizeofT*count := Nat.le_mul_of_pos_left count ht
  unfold PolicyInterface.reqBytes
  rw [toSizeType_of_lt (n := count) (by omega),toSizeT,
    Nat.mod_eq_of_lt (show sizeofT*count+headerSize bytes < 2^64 from lt_of_le_of_lt hf hv.2)]
  exact toSizeType_of_lt (by omega)

end Request

end Allocators.FreeList
