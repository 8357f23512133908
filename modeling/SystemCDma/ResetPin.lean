import SystemCDma.WatchedRun

/-!
# A component behind an active-low reset pin

When the pin falls the reset section of the component runs, and it runs again
instead of every clock edge while the pin is low. All other events reach the
component as before, and nothing happens when the pin rises. If what reset
leaves is a cleared state, then a pulse clears the component throughout exactly
if no event under reset disturbs the cleared state. A component that comes out
of the pulse cleared, but with an old buffer, looks like a fresh one with any
buffer if the first event that uses the buffer fills it.
-/

namespace SystemCDma.ResetPin

open EventRun WatchedRun

variable {S E V O B : Type*}

/-- The pin falls or rises, or something happens to the component. -/
inductive PinEvent (E : Type*) where
  | fall
  | rise
  | plain (e : E)

/-- The pin and the component. -/
structure Pinned (S : Type*) where
  /-- The pin is low. -/
  low : Bool
  /-- The component. -/
  state : S

section Machine

variable (step : S → E → Option S) (reset : S → S) (isEdge : E → Bool)

/-- A step of the component at a level of the pin. -/
def gated (low : Bool) (s : S) (e : E) : Option S :=
  if low && isEdge e then some (reset s) else step s e

/-- One event of the component with its pin. -/
def pinStep (p : Pinned S) : PinEvent E → Option (Pinned S)
  | .fall => some ⟨true,reset p.state⟩
  | .rise => some ⟨false,p.state⟩
  | .plain e => (gated step reset isEdge p.low p.state e).map fun s => ⟨p.low,s⟩

/-- The pin falls, some events find it low, and it rises again. -/
def pulse (held : List E) : List (PinEvent E) := .fall::(held.map .plain++[.rise])

/-- At every moment while the pin is low the component is cleared. -/
def ClearedThroughout (Cleared : S → Prop) (p : Pinned S) (held : List E) : Prop :=
  ∀ pre post p',held=pre++post →
    run (pinStep step reset isEdge) p (.fall::pre.map .plain)=some p' → Cleared p'.state

end Machine

variable {step : S → E → Option S} {reset : S → S} {isEdge : E → Bool}

/-- While the pin stays as it is the component runs by itself. -/
theorem run_plain (low : Bool) (s : S) (es : List E) :
    run (pinStep step reset isEdge) ⟨low,s⟩ (es.map .plain)=
      (run (gated step reset isEdge low) s es).map fun t => ⟨low,t⟩ := by
  induction es generalizing s with
  | nil => rfl
  | cons e es ih =>
    rw [List.map_cons,run_cons,run_cons,pinStep]
    cases gated step reset isEdge low s e with
    | none => rfl
    | some t => exact ih t

/-- With the pin high the steps are those of the component. -/
theorem gated_high : gated step reset isEdge false=step := by
  funext s e
  rfl

/-- With the pin low an edge runs the reset section. -/
theorem gated_edge {e : E} (s : S) (h : isEdge e=true) :
    gated step reset isEdge true s e=some (reset s) := by
  rw [gated,h]
  rfl

/-- With the pin low every other event is a step of the component. -/
theorem gated_other {e : E} (s : S) (h : isEdge e=false) :
    gated step reset isEdge true s e=step s e := by
  rw [gated,h]
  rfl

/-- After the fall the component runs from its reset state with the pin low. -/
theorem run_fall (p : Pinned S) (es : List E) :
    run (pinStep step reset isEdge) p (.fall::es.map .plain)=
      (run (gated step reset isEdge true) (reset p.state) es).map fun t => ⟨true,t⟩ :=
  run_plain true (reset p.state) es

/-- The cleared state holds along a run under reset exactly if every event
under reset leaves it cleared. -/
theorem cleared_run_iff {Cleared : S → Prop} {Harmless : E → Prop}
    (hreset : ∀ s,Cleared s → Cleared (reset s))
    (hstep : ∀ s e,isEdge e=false → Cleared s → ∃ t,step s e=some t ∧ (Cleared t ↔ Harmless e))
    {s : S} (hs : Cleared s) (held : List E) :
    (∀ pre post t,held=pre++post → run (gated step reset isEdge true) s pre=some t → Cleared t) ↔
      ∀ e∈held,isEdge e=false → Harmless e := by
  induction held generalizing s with
  | nil =>
    constructor
    · intro _ e he
      cases he
    · intro _ pre post t hsplit hrun
      obtain ⟨rfl,_⟩ := List.append_eq_nil_iff.mp hsplit.symm
      cases hrun
      exact hs
  | cons e es ih =>
    have hnext : ∃ t,gated step reset isEdge true s e=some t ∧
        (Cleared t ↔ (isEdge e=false → Harmless e)) := by
      cases he : isEdge e with
      | true =>
        refine ⟨_,gated_edge s he,⟨fun _ hf => ?_,fun _ => hreset s hs⟩⟩
        cases hf
      | false =>
        obtain ⟨t,ht,hiff⟩ := hstep s e he hs
        exact ⟨t,(gated_other s he).trans ht,hiff.trans ⟨fun h _ => h,fun h => h rfl⟩⟩
    obtain ⟨t,ht,hiff⟩ := hnext
    constructor
    · intro h
      have hcleared : Cleared t := h [e] es t rfl (by rw [run_singleton]; exact ht)
      intro f hf
      rcases List.mem_cons.mp hf with rfl|hf
      · exact hiff.mp hcleared
      · refine (ih hcleared).mp (fun pre post u hsplit hrun => ?_) f hf
        refine h (e::pre) post u (by rw [hsplit]; rfl) ?_
        rw [run_cons,ht]
        exact hrun
    · intro h pre post u hsplit hrun
      cases pre with
      | nil =>
        cases hrun
        exact hs
      | cons f pre =>
        obtain ⟨rfl,hrest⟩ := List.cons.inj hsplit
        rw [run_cons,ht] at hrun
        have hcleared : Cleared t := hiff.mpr (h e List.mem_cons_self)
        exact (ih hcleared).mpr (fun g hg => h g (List.mem_cons_of_mem _ hg)) pre post u hrest hrun

/-- A pulse clears the component throughout exactly if every event under reset
leaves a cleared state cleared. -/
theorem clearedThroughout_iff {Cleared : S → Prop} {Harmless : E → Prop}
    (hreset : ∀ s,Cleared s → Cleared (reset s))
    (hstep : ∀ s e,isEdge e=false → Cleared s → ∃ t,step s e=some t ∧ (Cleared t ↔ Harmless e))
    {p : Pinned S} (hp : Cleared (reset p.state)) (held : List E) :
    ClearedThroughout step reset isEdge Cleared p held ↔
      ∀ e∈held,isEdge e=false → Harmless e := by
  rw [←cleared_run_iff hreset hstep hp held]
  constructor
  · intro h pre post t hsplit hrun
    exact h pre post ⟨true,t⟩ hsplit (by rw [run_fall,hrun]; rfl)
  · intro h pre post p' hsplit hrun
    rw [run_fall] at hrun
    obtain ⟨t,ht,heq⟩ := Option.map_eq_some_iff.mp hrun
    rw [←heq]
    exact h pre post t hsplit ht

/-- After a pulse the pin is high, and a component that was cleared throughout
is still cleared. -/
theorem pulse_end {Cleared : S → Prop} {p p' : Pinned S} {held : List E}
    (hrun : run (pinStep step reset isEdge) p (pulse held)=some p') :
    p'.low=false ∧
      (ClearedThroughout step reset isEdge Cleared p held → Cleared p'.state) := by
  rw [pulse,←List.cons_append,run_append,run_fall] at hrun
  cases ht : run (gated step reset isEdge true) (reset p.state) held with
  | none =>
    rw [ht] at hrun
    cases hrun
  | some t =>
    rw [ht] at hrun
    cases hrun
    refine ⟨rfl,fun h => ?_⟩
    exact h held [] ⟨true,t⟩ (List.append_nil held).symm (by rw [run_fall,ht]; rfl)

section Restart

/-- A component behind its pin, as it is watched from outside. An edge that
runs the reset section puts out nothing. -/
def behindPin (A : Watched S E V O) (reset : S → S) (isEdge : E → Bool) :
    Watched (Pinned S) E V O where
  step p e := pinStep A.step reset isEdge p (.plain e)
  seen p := A.seen p.state
  out p e := if p.low && isEdge e then [] else A.out p.state e

/-- After the pulse the component looks, over a continuation, like one that is
started afresh in the surroundings of that moment, whatever the buffer of the
fresh one holds. -/
def Restarted (A : Watched S E V O) (reset : S → S) (isEdge : E → Bool) (fresh : B → S → S)
    (p : Pinned S) (held es : List E) : Prop :=
  ∀ p',run (pinStep A.step reset isEdge) p (pulse held)=some p' → ∀ b,
    (behindPin A reset isEdge).Alike A p' (fresh b p'.state) es

/-- After a pulse the first event that uses the buffer fills it. -/
def RefilledAfter (A : Watched S E V O) (reset : S → S) (isEdge : E → Bool)
    (Uses Fills : S → E → Prop) (p : Pinned S) (held es : List E) : Prop :=
  ∀ p',run (pinStep A.step reset isEdge) p (pulse held)=some p' →
    FirstFills A.step Uses Fills p'.state es

variable {A : Watched S E V O}

/-- With the pin high nothing tells that there is one. -/
theorem alike_behindPin {p : Pinned S} (hlow : p.low=false) (es : List E) :
    (behindPin A reset isEdge).Alike A p p.state es := by
  have hstep : Lockstep (behindPin A reset isEdge) A fun q s => q.low=false ∧ q.state=s := by
    constructor
    · rintro q s ⟨_,rfl⟩
      rfl
    · rintro q s e ⟨hq,rfl⟩
      dsimp only [behindPin]
      rw [hq]
      rfl
    · rintro q s e ⟨hq,rfl⟩
      dsimp only [behindPin,pinStep]
      rw [hq,gated_high]
      cases A.step q.state e with
      | none => trivial
      | some t => exact ⟨rfl,rfl⟩
  exact hstep.alike ⟨hlow,rfl⟩ es

variable {put fresh : B → S → S} {Uses Fills : S → E → Prop} {R : S → S → Prop}
  {Cleared : S → Prop}

/-- A component that a pulse leaves cleared looks like a fresh one if the first
use of its buffer fills it. The relation is that of states which differ in
nothing that a step looks at. -/
theorem restarted_of_refilled (hHidden : Hidden A put Uses) (hR : Lockstep A A R)
    (hfresh : ∀ b s,Cleared s → R (put b s) (fresh b s))
    (hfill : ∀ b s e,Uses s e → Fills s e →
      A.out s e=A.out (put b s) e ∧ Together R (A.step s e) (A.step (put b s) e))
    {p : Pinned S} {held es : List E}
    (hcleared : ClearedThroughout A.step reset isEdge Cleared p held)
    (h : RefilledAfter A reset isEdge Uses Fills p held es) :
    Restarted A reset isEdge fresh p held es := by
  intro p' hrun b
  obtain ⟨hlow,hend⟩ := pulse_end hrun
  have hput : A.Alike A p'.state (put b p'.state) es :=
    alike_put hHidden hR hfill b (h p' hrun)
  exact (alike_behindPin hlow es).trans
    (hput.trans (hR.alike (hfresh b p'.state (hend hcleared)) es))

/-- If it looks like a fresh one with any buffer, the first use fills it. -/
theorem refilled_of_restarted (hHidden : Hidden A put Uses) (hR : Lockstep A A R)
    (hfresh : ∀ b s,Cleared s → R (put b s) (fresh b s))
    (hshown : ∀ s e,Uses s e → (∀ b,A.out s e=A.out (put b s) e) → Fills s e)
    {p : Pinned S} {held es : List E}
    (hcleared : ClearedThroughout A.step reset isEdge Cleared p held)
    (h : Restarted A reset isEdge fresh p held es) :
    RefilledAfter A reset isEdge Uses Fills p held es := by
  intro p' hrun
  obtain ⟨hlow,hend⟩ := pulse_end hrun
  refine firstFills_of_alike hHidden hshown fun b => ?_
  exact ((alike_behindPin hlow es).symm.trans (h p' hrun b)).trans
    (hR.alike (hfresh b p'.state (hend hcleared)) es).symm

end Restart

end SystemCDma.ResetPin
