import SystemCDma.TransferEngine
import SystemCDma.EventRun

/-!
# The account of a clocked channel

What the signals of a channel say about the transactions issued since its
last latching edge, for any step function whose states contain a channel
clocked by the transfer engine. A size that is not a multiple of four is never
reached, and its channel never raises the interrupt.
-/

namespace SystemCDma.TransferAccount

open TlmBus TransferEngine EventRun

/-- A started channel whose size is not a multiple of four. Its offset steps
over the size forever, and the interrupt stays low. -/
structure Endless (e : Engine) : Prop where
  /-- The channel is started. -/
  started : e.startClear=true
  /-- The interrupt is low. -/
  quiet : e.interrupt=false
  /-- The size is not a whole number of words. -/
  partialSize : ¬4∣e.size.toNat
  /-- The offset is. -/
  wholeOffset : 4∣e.offset.toNat

/-- What the signals of a channel say about its last latched request and the
transactions issued since. The last case of a raised channel covers both a
pending and a taken CLEAR. -/
inductive Accounted (e : Engine) (since : Option (Request×List Txn)) : Prop where
  /-- Nothing is in progress and the interrupt is low. -/
  | idle (stopped : e.startClear=false) (quiet : e.interrupt=false)
  /-- `n` words have been moved. -/
  | moving (q : Request) (n : ℕ) (txns : List Txn) (latch : since=some (q,txns))
      (progress : e.Progress q n) (words : 4∣q.size.toNat) (bound : 4*n≤q.size.toNat)
      (moved : Moves q.source q.target n txns)
  /-- The size is never reached. -/
  | endless (loop : Endless e)
  /-- All words have been moved and the interrupt is high. -/
  | raised (q : Request) (txns : List Txn) (latch : since=some (q,txns)) (done : e.Raised q)
      (words : 4∣q.size.toNat) (moved : Moves q.source q.target (q.size.toNat/4) txns)

/-- The account of an idle channel after its next edge: it has latched the
request in its registers, or it is still idle. -/
theorem accounted_idle_edge {r : Registers} {e : Engine} (hs : e.startClear=false)
    (since : Option (Request×List Txn)) :
    Accounted (e.tick r) (match e.latched r with
      | some q => some (q,[])
      | none => since.map fun p => (p.1,p.2++[])) := by
  cases hl : e.latched r with
  | some q =>
    have hp := progress_latched hl
    by_cases hq : 4∣q.size.toNat
    · exact .moving q 0 [] rfl hp hq (Nat.zero_le _) .nil
    · refine .endless ⟨hp.started,hp.quiet,?_,?_⟩
      · rw [hp.size]
        exact hq
      · rw [hp.offset]
        exact Nat.dvd_mul_right 4 0
  | none =>
    have hzero : r 3=0 := by
      by_contra hne
      rw [Engine.latched,if_pos ⟨hs,hne⟩] at hl
      cases hl
    rw [tick_idle r hs]
    refine .idle ?_ rfl
    simp only [hzero,bne_self_eq_false]

/-- A partial size keeps the channel moving at every edge. -/
theorem Endless.moving {e : Engine} (h : Endless e) : e.Moving := by
  refine ⟨h.started,fun he => h.partialSize ?_⟩
  rw [←he]
  exact h.wholeOffset

/-- An edge leaves an endless channel endless. -/
theorem Endless.tick {e : Engine} (h : Endless e) (r : Registers) : Endless (e.tick r) := by
  have hw := h.wholeOffset
  rw [tick_moving r h.moving]
  refine ⟨h.started,h.quiet,h.partialSize,?_⟩
  simp only [BitVec.toNat_add,BitVec.reduceToNat]
  omega

/-- One edge of a channel keeps its account. -/
theorem accounted_edge {e : Engine} {since : Option (Request×List Txn)} {txns : List Txn}
    (h : Accounted e since) (r : Registers) (hi : e.Issues txns) :
    Accounted (e.tick r) (match e.latched r with
      | some q => some (q,txns)
      | none => since.map fun p => (p.1,p.2++txns)) := by
  cases h with
  | idle hs hq =>
    rw [hi.still (still_idle hs)]
    exact accounted_idle_edge hs since
  | moving q n before hlatch hp hwords hbound hmoved =>
    rw [latched_started _ hp.started]
    subst hlatch
    by_cases hn : 4*n=q.size.toNat
    · rw [hi.still (fun hm => hp.moving_iff.mp hm hn)]
      refine .raised q before ?_ (hp.tick_raise _ hn).1 hwords ?_
      · simp only [Option.map_some,List.append_nil]
      · rw [←hn,Nat.mul_div_cancel_left n (by omega)]
        exact hmoved
    · have hnext : 4*(n+1)≤q.size.toNat := by omega
      obtain ⟨rd,wr,ht,hword⟩ := hi.wordMove hp (hp.moving_iff.mpr hn)
      subst ht
      exact .moving q (n+1) _ rfl (hp.tick_move _ hnext) hwords hnext (hmoved.snoc hword)
  | endless hloop => exact .endless (hloop.tick _)
  | raised q before hlatch hdone hwords hmoved =>
    cases hs : e.startClear with
    | false =>
      rw [hi.still (still_idle hs)]
      exact accounted_idle_edge hs since
    | true =>
      have hstill : ¬e.Moving := still_finished (hdone.offset.trans hdone.size.symm)
      rw [latched_started _ hs,hi.still hstill,hlatch]
      refine .raised q before ?_ (hdone.tick_hold _ hs).1 hwords hmoved
      simp only [Option.map_some,List.append_nil]

/-- The run lemma: the account of a clocked channel holds after every run that
starts with it. -/
theorem accounted_run {S M : Type*} {step : S → Event M → Option S} {engine : S → Engine}
    {registers : S → Registers} {turns : S → List Turn}
    (hclock : Clocked step engine registers turns) {s t : S} {es : List (Event M)}
    (hs : Accounted (engine s) (sinceLatch (turns s))) (h : run step s es=some t) :
    Accounted (engine t) (sinceLatch (turns t)) := by
  have hstep : ∀ u e v,Accounted (engine u) (sinceLatch (turns u)) → step u e=some v →
      Accounted (engine v) (sinceLatch (turns v)) := by
    intro u e v hu he
    by_cases hedge : e=.edge
    · subst hedge
      obtain ⟨hengine,txns,hturns,hi⟩ := hclock.edge he
      rw [hengine,hturns,sinceLatch_snoc]
      exact accounted_edge hu _ hi
    · obtain ⟨hengine,hturns⟩ := hclock.between he hedge
      rw [hengine,hturns]
      exact hu
  exact run_invariant hstep hs h

/-- A channel after reset is accounted for. -/
theorem accounted_reset : Accounted Engine.reset (sinceLatch []) := .idle rfl rfl

end SystemCDma.TransferAccount
