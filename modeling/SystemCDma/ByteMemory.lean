import Mathlib.Data.Set.Function
import Mathlib.Order.CompletePartialOrder
import Mathlib.Order.Interval.Set.Defs
import Mathlib.Tactic.IntervalCases

/-!
# Byte memory, little-endian words and the forward copy

A memory gives a byte to every address. Words are four little-endian bytes.
The forward copy moves consecutive words in increasing order, each read from
the memory its predecessors left, so overlapping ranges are covered. Where the
target does not start inside the source it is the copy of the old contents.
Two forward copies that do not write what the other one reads or writes commute.
-/

namespace SystemCDma.ByteMemory

/-- A byte at every address. -/
abbrev Memory := ℕ → BitVec 8

/-- The addresses of `n` bytes from `a` on. -/
abbrev bytes (a n : ℕ) : Set ℕ := Set.Ico a (a+n)

/-- Word `n` of a range lies in the range. -/
theorem word_subset {a n z : ℕ} (h : 4*(n+1)≤z) : bytes (a+4*n) 4⊆bytes a z :=
  Set.Ico_subset_Ico (by omega) (by omega)

/-- Replace one byte. -/
def setByte (m : Memory) (a : ℕ) (b : BitVec 8) : Memory := fun x => if x=a then b else m x

/-- The little-endian word at an address. -/
def load (m : Memory) (a : ℕ) : BitVec 32 :=
  (m a).setWidth 32 ||| (m (a+1)).setWidth 32<<<8 ||| (m (a+2)).setWidth 32<<<16 |||
    (m (a+3)).setWidth 32<<<24

/-- Replace four bytes by those of a word, lowest byte first. -/
def store (m : Memory) (a : ℕ) (w : BitVec 32) : Memory :=
  fun x => if a≤x ∧ x<a+4 then w.extractLsb' (8*(x-a)) 8 else m x

/-- A replaced byte reads back. -/
@[simp] theorem setByte_self (m : Memory) (a : ℕ) (b : BitVec 8) : setByte m a b a=b :=
  if_pos rfl

/-- Replacing one byte keeps all the others. -/
theorem setByte_of_ne (m : Memory) {a x : ℕ} (b : BitVec 8) (h : x≠a) :
    setByte m a b x=m x := if_neg h

/-- The bytes of a loaded word are the bytes of the memory. -/
theorem load_byte (m : Memory) (a : ℕ) {i : ℕ} (hi : i<4) :
    (load m a).extractLsb' (8*i) 8=m (a+i) := by
  apply BitVec.eq_of_getLsbD_eq
  intro j hj
  simp only [load,BitVec.getLsbD_extractLsb',BitVec.getLsbD_or,BitVec.getLsbD_shiftLeft,
    BitVec.getLsbD_setWidth,hj,decide_true,Bool.true_and]
  have hj' : j<32 := by omega
  interval_cases i
  · simp [hj,hj',show j<16 by omega,show j<24 by omega]
  · simp [hj,hj',show 8+j<32 by omega,show 8+j<16 by omega,show 8+j<24 by omega]
  · simp [hj,hj',show 16+j<32 by omega,show ¬16+j<8 by omega,show 16+j<24 by omega,
      BitVec.getLsbD_of_ge (m a) (16+j) (by omega),
      BitVec.getLsbD_of_ge (m (a+1)) (16+j-8) (by omega)]
  · simp [hj,hj',show 24+j<32 by omega,show ¬24+j<8 by omega,show ¬24+j<16 by omega,
      BitVec.getLsbD_of_ge (m a) (24+j) (by omega),
      BitVec.getLsbD_of_ge (m (a+1)) (24+j-8) (by omega),
      BitVec.getLsbD_of_ge (m (a+2)) (24+j-16) (by omega)]

/-- A store changes nothing outside its four bytes. -/
theorem store_frame (m : Memory) {a x : ℕ} (w : BitVec 32) (h : x∉bytes a 4) :
    store m a w x=m x := if_neg h

/-- A store puts the bytes of the word into its four addresses. -/
theorem store_written (m : Memory) {a x : ℕ} (w : BitVec 32) (h : x∈bytes a 4) :
    store m a w x=w.extractLsb' (8*(x-a)) 8 := if_pos h

/-- One word copy, byte by byte, also when the two words overlap. -/
theorem store_load (m : Memory) (s t x : ℕ) :
    store m t (load m s) x=if x∈bytes t 4 then m (s+(x-t)) else m x := by
  unfold store
  by_cases h : t≤x ∧ x<t+4
  · rw [if_pos h,if_pos (show x∈bytes t 4 from h),load_byte m s (by omega)]
  · rw [if_neg h,if_neg (show x∉bytes t 4 from h)]

/-- Word copies of memories that agree on a region holding the source word
agree on that region afterwards. -/
theorem store_load_eqOn {m m' : Memory} {R : Set ℕ} {s : ℕ} (t : ℕ)
    (h : Set.EqOn m m' R) (hs : bytes s 4⊆R) :
    Set.EqOn (store m t (load m s)) (store m' t (load m' s)) R := by
  intro x hx
  rw [store_load,store_load]
  by_cases hxt : x∈bytes t 4
  · have hx₁ := hxt.1
    have hx₂ := hxt.2
    rw [if_pos hxt,if_pos hxt]
    exact h (hs ⟨by omega,by omega⟩)
  · rw [if_neg hxt,if_neg hxt]
    exact h hx

/-- A word outside the written one is loaded as before. -/
theorem load_store_of_disjoint (m : Memory) {a t : ℕ} (w : BitVec 32)
    (h : Disjoint (bytes t 4) (bytes a 4)) : load (store m t w) a=load m a := by
  have hb : ∀ i<4,store m t w (a+i)=m (a+i) := fun i hi =>
    store_frame m w (Set.disjoint_right.mp h ⟨by omega,by omega⟩)
  have h₀ := hb 0 (by omega)
  rw [Nat.add_zero] at h₀
  rw [load,load,h₀,hb 1 (by omega),hb 2 (by omega),hb 3 (by omega)]

/-- Writes to words that do not meet commute. -/
theorem store_comm (m : Memory) {t₁ t₂ : ℕ} (w₁ w₂ : BitVec 32)
    (h : Disjoint (bytes t₁ 4) (bytes t₂ 4)) :
    store (store m t₂ w₂) t₁ w₁=store (store m t₁ w₁) t₂ w₂ := by
  funext x
  by_cases hx₁ : x∈bytes t₁ 4
  · have hx₂ := Set.disjoint_left.mp h hx₁
    rw [store_frame _ _ hx₂,store_written _ _ hx₁,store_written _ _ hx₁]
  · rw [store_frame _ _ hx₁]
    by_cases hx₂ : x∈bytes t₂ 4
    · rw [store_written _ _ hx₂,store_written _ _ hx₂]
    · rw [store_frame _ _ hx₂,store_frame _ _ hx₂,store_frame _ _ hx₁]

/-- Words with the same four bytes are equal. -/
theorem word_ext {v w : BitVec 32} (h : ∀ i<4,v.extractLsb' (8*i) 8=w.extractLsb' (8*i) 8) :
    v=w := by
  apply BitVec.eq_of_getLsbD_eq
  intro j hj
  have hb := congrArg (fun b : BitVec 8 => b.getLsbD (j%8)) (h (j/8) (by omega))
  simp only [BitVec.getLsbD_extractLsb',Nat.mod_lt j (show 0<8 by decide),decide_true,
    Bool.true_and,Nat.div_add_mod] at hb
  exact hb

/-- A stored word reads back. -/
theorem load_store (m : Memory) (a : ℕ) (w : BitVec 32) : load (store m a w) a=w := by
  apply word_ext
  intro i hi
  rw [load_byte _ _ hi,store_written _ _ ⟨by omega,by omega⟩,Nat.add_sub_cancel_left]

/-- Words with the same bytes are the same. -/
theorem load_congr {m m' : Memory} {a b : ℕ} (h : ∀ i<4,m (a+i)=m' (b+i)) :
    load m a=load m' b := by
  apply word_ext
  intro i hi
  rw [load_byte _ _ hi,load_byte _ _ hi,h i hi]

/-- Replace `n` bytes by the first ones of a buffer. -/
def copyBytes (m : Memory) (a : ℕ) (buffer : Memory) (n : ℕ) : Memory :=
  fun x => if a≤x ∧ x<a+n then buffer (x-a) else m x

/-- Copying four bytes stores the word at the front of the buffer. -/
theorem copyBytes_word (m : Memory) (a : ℕ) (buffer : Memory) :
    copyBytes m a buffer 4=store m a (load buffer 0) := by
  funext x
  unfold copyBytes store
  by_cases hx : a≤x ∧ x<a+4
  · rw [if_pos hx,if_pos hx,load_byte buffer 0 (by omega),Nat.zero_add]
  · rw [if_neg hx,if_neg hx]

/-- Only the first `n` bytes of the buffer are read. -/
theorem copyBytes_congr (m : Memory) (a : ℕ) {buffer buffer' : Memory} {n : ℕ}
    (h : ∀ k<n,buffer' k=buffer k) : copyBytes m a buffer' n=copyBytes m a buffer n := by
  funext x
  unfold copyBytes
  by_cases hx : a≤x ∧ x<a+n
  · rw [if_pos hx,if_pos hx,h _ (by omega)]
  · rw [if_neg hx,if_neg hx]

/-- Copies that agree at a byte for every memory either both write it or both
leave it. -/
theorem copyBytes_window {a b n n' k : ℕ} {buffer : Memory}
    (h : ∀ m,copyBytes m a buffer n k=copyBytes m b buffer n' k) :
    (a≤k ∧ k<a+n) ↔ (b≤k ∧ k<b+n') := by
  have hne : ∀ x : BitVec 8,x≠x+1 := by
    intro x hx
    cases BitVec.self_eq_add_right.mp hx
  unfold copyBytes at h
  constructor
  · intro hin
    by_contra hout
    have hk := h fun _ => buffer (k-a)+1
    rw [if_pos hin,if_neg hout] at hk
    exact hne _ hk
  · intro hin
    by_contra hout
    have hk := h fun _ => buffer (k-b)+1
    rw [if_neg hout,if_pos hin] at hk
    exact hne _ hk.symm

/-- Copy `n` words from `s` to `t` in increasing order; every word is read
from the memory that the earlier ones left. -/
def forwardCopy (m : Memory) (s t : ℕ) : ℕ → Memory
  | 0 => m
  | n+1 => store (forwardCopy m s t n) (t+4*n) (load (forwardCopy m s t n) (s+4*n))

/-- The forward copy changes nothing outside its target range. -/
theorem forwardCopy_frame (m : Memory) (s t : ℕ) {n x : ℕ} (h : x∉bytes t (4*n)) :
    forwardCopy m s t n x=m x := by
  induction n with
  | zero => rfl
  | succ n ih =>
    have hout : x<t ∨ t+4*(n+1)≤x := by
      by_contra hc
      exact h ⟨by omega,by omega⟩
    have hin : x∉bytes t (4*n) := fun hm => by have := hm.1; have := hm.2; omega
    have hword : x∉bytes (t+4*n) 4 := fun hm => by have := hm.1; have := hm.2; omega
    rw [forwardCopy,store_frame _ _ hword,ih hin]

/-- Where the target starts at or below the source, or at or above its end,
the forward copy is the move of the old contents. The induction carries the
whole memory, because each step reads source bytes no earlier step wrote. -/
theorem forwardCopy_move (m : Memory) {s t n : ℕ} (h : t ≤ s ∨ s+4*n≤t) (x : ℕ) :
    forwardCopy m s t n x=if x∈bytes t (4*n) then m (s+(x-t)) else m x := by
  induction n generalizing x with
  | zero => rw [if_neg (fun hm => by have := hm.1; have := hm.2; omega)]; rfl
  | succ n ih =>
    have ih' := fun y => ih (by omega) y
    rw [forwardCopy,store_load]
    by_cases hw : x∈bytes (t+4*n) 4
    · have h₁ := hw.1
      have h₂ := hw.2
      have hsrc : s+4*n+(x-(t+4*n))∉bytes t (4*n) := fun hm => by
        have := hm.1
        have := hm.2
        omega
      have hx : s+4*n+(x-(t+4*n))=s+(x-t) := by omega
      rw [if_pos hw,ih',if_neg hsrc,hx,if_pos ⟨by omega,by omega⟩]
    · have hout : x<t+4*n ∨ t+4*n+4≤x := by
        by_contra hc
        exact hw ⟨by omega,by omega⟩
      rw [if_neg hw,ih']
      by_cases hx : x∈bytes t (4*n)
      · have h₁ := hx.1
        have h₂ := hx.2
        rw [if_pos hx,if_pos ⟨by omega,by omega⟩]
      · have hx' : x∉bytes t (4*(n+1)) := fun hm => hx ⟨hm.1,by have := hm.2; omega⟩
        rw [if_neg hx,if_neg hx']

/-- Every byte of the target holds the old byte of the source. -/
theorem forwardCopy_target (m : Memory) {s t n i : ℕ} (h : t ≤ s ∨ s+4*n≤t) (hi : i<4*n) :
    forwardCopy m s t n (t+i)=m (s+i) := by
  rw [forwardCopy_move m h,if_pos ⟨by omega,by omega⟩]
  congr 1
  omega

/-- Copying a word commutes with a whole forward copy when neither writes what
the other one reads or writes. -/
theorem forwardCopy_store (m : Memory) {s₁ t₁ s₂ t₂ n : ℕ}
    (ht : Disjoint (bytes t₁ 4) (bytes t₂ (4*n))) (h₁ : Disjoint (bytes t₁ 4) (bytes s₂ (4*n)))
    (h₂ : Disjoint (bytes t₂ (4*n)) (bytes s₁ 4)) :
    store (forwardCopy m s₂ t₂ n) t₁ (load (forwardCopy m s₂ t₂ n) s₁)=
      forwardCopy (store m t₁ (load m s₁)) s₂ t₂ n := by
  induction n with
  | zero => rfl
  | succ n ih =>
    have hword : ∀ a,bytes (a+4*n) 4⊆bytes a (4*(n+1)) := fun a => word_subset le_rfl
    have hrest : ∀ a,bytes a (4*n)⊆bytes a (4*(n+1)) := fun a =>
      Set.Ico_subset_Ico le_rfl (by omega)
    have ih' := ih (ht.mono_right (hrest t₂)) (h₁.mono_right (hrest s₂))
      (h₂.mono_left (hrest t₂))
    rw [forwardCopy,forwardCopy,load_store_of_disjoint _ _ (h₂.mono_left (hword t₂)),
      store_comm _ _ _ (ht.mono_right (hword t₂)),ih',←ih',
      load_store_of_disjoint _ _ (h₁.mono_right (hword s₂)),ih']

/-- Two forward copies commute when neither writes what the other one reads or
writes; each may overlap itself. -/
theorem forwardCopy_comm (m : Memory) {s₁ t₁ n₁ s₂ t₂ n₂ : ℕ}
    (ht : Disjoint (bytes t₁ (4*n₁)) (bytes t₂ (4*n₂)))
    (h₁ : Disjoint (bytes t₁ (4*n₁)) (bytes s₂ (4*n₂)))
    (h₂ : Disjoint (bytes t₂ (4*n₂)) (bytes s₁ (4*n₁))) :
    forwardCopy (forwardCopy m s₁ t₁ n₁) s₂ t₂ n₂=
      forwardCopy (forwardCopy m s₂ t₂ n₂) s₁ t₁ n₁ := by
  induction n₁ with
  | zero => rfl
  | succ n ih =>
    have hword : ∀ a,bytes (a+4*n) 4⊆bytes a (4*(n+1)) := fun a => word_subset le_rfl
    have hrest : ∀ a,bytes a (4*n)⊆bytes a (4*(n+1)) := fun a =>
      Set.Ico_subset_Ico le_rfl (by omega)
    have ih' := ih (ht.mono_left (hrest t₁)) (h₁.mono_left (hrest t₁)) (h₂.mono_right (hrest s₁))
    rw [forwardCopy,forwardCopy,←ih',forwardCopy_store _ (ht.mono_left (hword t₁))
      (h₁.mono_left (hword t₁)) (h₂.mono_right (hword s₁))]

end SystemCDma.ByteMemory
