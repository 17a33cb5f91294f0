import Mathlib.Data.Nat.Log
import Mathlib.Tactic.Ring

namespace Lib

/-- Byte-addressed memory. -/
abbrev Memory := Nat → UInt8

namespace Memory

/-- The little-endian word of `w` bytes at `a`. -/
def readWord (m : Memory) : Nat → Nat → Nat
  | 0,_ => 0
  | w+1,a => (m a).toNat+256*readWord m w (a+1)

def writeWord (m : Memory) (w a n : Nat) : Memory := fun x =>
  if a ≤ x ∧ x < a+w then UInt8.ofNat (n/256^(x-a)) else m x

def writeByte (m : Memory) (a : Nat) (b : UInt8) : Memory := fun x => if x=a then b else m x

theorem readWord_lt (m : Memory) (w a : Nat) : readWord m w a < 256^w := by
  induction w generalizing a with
  | zero => simp [readWord]
  | succ w ih =>
    have h := ih (a+1)
    have hb := (m a).toNat_lt
    rw [readWord,pow_succ]
    omega

theorem readWord_congr {m m' : Memory} {w a : Nat} (h : ∀ x, a ≤ x → x < a+w → m x=m' x) :
    readWord m w a=readWord m' w a := by
  induction w generalizing a with
  | zero => rfl
  | succ w ih =>
    rw [readWord,readWord,h a (by omega) (by omega),
      ih (fun x h1 h2 => h x (by omega) (by omega))]

theorem writeWord_other {m : Memory} {w a n x : Nat} (h : x < a ∨ a+w ≤ x) :
    writeWord m w a n x=m x := if_neg (by omega)

theorem writeByte_other {m : Memory} {a x : Nat} {b : UInt8} (h : x ≠ a) :
    writeByte m a b x=m x := if_neg h

theorem readWord_writeWord {m : Memory} {w a n : Nat} (hn : n < 256^w) :
    readWord (writeWord m w a n) w a=n := by
  induction w generalizing a n m with
  | zero =>
    have : n=0 := by simpa using hn
    simp [readWord,this]
  | succ w ih =>
    have hhead : (writeWord m (w+1) a n a).toNat=n%256 := by
      simp [writeWord]
    have htail : readWord (writeWord m (w+1) a n) w (a+1)=
        readWord (writeWord m w (a+1) (n/256)) w (a+1) := by
      apply readWord_congr
      intro x h1 h2
      have hx : x-a=(x-(a+1))+1 := by omega
      simp only [writeWord,if_pos (show a ≤ x ∧ x < a+(w+1) by omega),
        if_pos (show a+1 ≤ x ∧ x < a+1+w by omega)]
      rw [hx,pow_succ,Nat.mul_comm,Nat.div_div_eq_div_mul]
    have hq : n/256 < 256^w := by
      rw [pow_succ] at hn
      omega
    rw [readWord,hhead,htail,ih hq]
    omega

end Memory

end Lib
