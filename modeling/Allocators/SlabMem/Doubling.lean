import Allocators.SlabMem.Routing

/-! `addCache2`: caches whose block sizes double. -/

namespace Allocators.SlabMem

open SlabImpl Lib

namespace Interface

/-- The loop of `addCache2`, with what `operator new` returns for each cache. -/
def addCache2 (pgSz : Nat) (i : Interface) (startSz maxSz count : Nat) : List Nat → Option Interface
  | [] => if startSz ≤ maxSz then none else some i
  | mem :: mems =>
    if startSz ≤ maxSz then
      match addCache pgSz i startSz count mem with
      | none => none
      | some i => addCache2 pgSz i (toSizeT (startSz*2)) maxSz count mems
    else some i

variable {pgSz startSz maxSz count : Nat} {mems : List Nat} {i j : Interface}

/-- The sizes that are added, up to the last that is not too large. -/
theorem addCache2_sizes (h0 : 0 < startSz) (hm : maxSz < 2^63)
    (h : addCache2 pgSz i startSz maxSz count mems=some j) :
    ∃ n, j.buckets.map Cache.blockSize=
        i.buckets.map Cache.blockSize ++ (List.range n).map (startSz*2^·) ∧
      maxSz < startSz*2^n ∧ ∀ k < n, startSz*2^k ≤ maxSz := by
  induction mems generalizing i startSz with
  | nil =>
    rw [addCache2] at h
    split_ifs at h with hc
    obtain rfl := Option.some.inj h
    exact ⟨0,by simp,by omega,by simp⟩
  | cons mem mems ih =>
    rw [addCache2] at h
    split_ifs at h with hc
    · cases ha : addCache pgSz i startSz count mem with
      | none => simp [ha] at h
      | some i' =>
        have hnext : toSizeT (startSz*2)=startSz*2 := Nat.mod_eq_of_lt (by omega)
        simp only [ha,hnext] at h
        obtain ⟨n,hn,hlt,hle⟩ := ih (by omega) h
        rw [addCache] at ha
        split_ifs at ha
        obtain rfl := Option.some.inj ha
        have hpow : ∀ k, startSz*2*2^k=startSz*2^(k+1) := fun k => by ring
        refine ⟨n+1,?_,by rwa [← hpow],?_⟩
        · rw [hn]
          simp only [List.map_append,List.append_assoc,List.range_succ_eq_map,List.map_cons,
            List.map_map,List.map_nil,List.singleton_append]
          simp [Function.comp_def,hpow,Cache.make]
          rfl
        · intro k hk
          cases k with
          | zero => simpa using hc
          | succ k =>
            rw [← hpow]
            exact hle k (by omega)
    · obtain rfl := Option.some.inj h
      exact ⟨0,by simp,by omega,by simp⟩

/-- With the caches of one `addCache2` a request gets less than twice what it asks for, unless it
is smaller than the smallest block; and none up to half the largest size goes to the heap. -/
theorem addCache2_wastes_little (h0 : 0 < startSz) (hle : startSz ≤ maxSz) (hm : maxSz < 2^63)
    (h : addCache2 pgSz ⟨[],[]⟩ startSz maxSz count mems=some j) (bytes : Nat) :
    match j.bucketFor bytes with
    | some idx => ∃ c, j.buckets[idx]?=some c ∧ bytes ≤ c.blockSize ∧
        (c.blockSize=startSz ∨ c.blockSize < 2*bytes)
    | none => maxSz < 2*bytes := by
  obtain ⟨n,hn,hlt,_⟩ := addCache2_sizes h0 hm h
  rw [List.map_nil,List.nil_append] at hn
  have hsize : ∀ k c, j.buckets[k]?=some c → c.blockSize=startSz*2^k := by
    intro k c hc
    have hx : (j.buckets.map Cache.blockSize)[k]?=some c.blockSize := by simp [hc]
    rw [hn] at hx
    obtain ⟨hk,he⟩ := List.getElem?_eq_some_iff.mp hx
    simpa using he.symm
  have hlen : j.buckets.length=n := by simpa using congrArg List.length hn
  rcases bucketFor_cases j bytes with ⟨hb,hall⟩ | ⟨lo,it,hi,hs,hlo,hit,hb⟩
  · rw [hb]
    cases n with
    | zero => omega
    | succ n =>
      obtain ⟨c,hc⟩ : ∃ c, j.buckets[n]?=some c := ⟨_,List.getElem?_eq_getElem (by omega)⟩
      have := hall c (List.mem_of_getElem? hc)
      rw [hsize n c hc] at this
      rw [pow_succ,← Nat.mul_assoc] at hlt
      omega
  · rw [hb]
    have hc : j.buckets[lo.length]?=some it := by rw [hs,Vector.getElem?_mid]
    refine ⟨it,hc,hit,?_⟩
    rcases List.eq_nil_or_concat' lo with rfl | ⟨l,x,rfl⟩
    · exact .inl (by simpa using hsize 0 it hc)
    · have hx : j.buckets[l.length]?=some x := by
        rw [hs,List.append_assoc,List.singleton_append,Vector.getElem?_mid]
      have h1 := hlo x (by simp)
      rw [hsize _ x hx] at h1
      have h2 := hsize _ it hc
      rw [List.length_append,List.length_singleton,pow_succ,← Nat.mul_assoc] at h2
      exact .inr (by omega)

/-- Caches for 2048, 4096 and 8192 bytes. -/
theorem addCache2_wastes_little_three :
    ∃ j, addCache2 4096 ⟨[],[]⟩ 2048 8192 4 [65536,131072,262144]=some j ∧
      match j.bucketFor 5000 with
      | some idx => ∃ c, j.buckets[idx]?=some c ∧ 5000 ≤ c.blockSize ∧
          (c.blockSize=2048 ∨ c.blockSize < 2*5000)
      | none => 8192 < 2*5000 := by
  obtain ⟨j,hj⟩ : ∃ j, addCache2 4096 ⟨[],[]⟩ 2048 8192 4 [65536,131072,262144]=some j := ⟨_,rfl⟩
  exact ⟨j,hj,addCache2_wastes_little (by decide) (by decide) (by decide) hj 5000⟩

end Interface

end Allocators.SlabMem
