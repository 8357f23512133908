import SystemCDma.EventRun

/-!
# Runs that look alike

A component is watched through its state and through what it puts out at each
event. Two components look alike over a list of events if the same is seen at
every moment and the same is put out at every event, also at one that ends the
run. If a component keeps a buffer that no step looks at before some event
uses it, and the first event that uses it fills it, then it is never seen what
the buffer held at the start.
-/

namespace SystemCDma.WatchedRun

variable {S S' S'' E V O B : Type*}

/-- A component and what can be seen of it. -/
structure Watched (S E V O : Type*) where
  /-- One step; a refused event ends the run. -/
  step : S → E → Option S
  /-- What is seen of a state. -/
  seen : S → V
  /-- What an event puts out, in order. -/
  out : S → E → List O

/-- Two results of a step belong together: both are refusals, or they are
related. -/
def Together (R : S → S' → Prop) : Option S → Option S' → Prop
  | some t,some t' => R t t'
  | none,none => True
  | _,_ => False

/-- Two components look alike over a list of events. -/
def Watched.Alike (A : Watched S E V O) (A' : Watched S' E V O) : S → S' → List E → Prop
  | s,s',[] => A.seen s=A'.seen s'
  | s,s',e::es => A.seen s=A'.seen s' ∧ A.out s e=A'.out s' e ∧
    Together (fun t t' => A.Alike A' t t' es) (A.step s e) (A'.step s' e)

/-- Results that belong together under one relation do so under a weaker one. -/
theorem Together.mono {R Q : S → S' → Prop} (hRQ : ∀ t t',R t t' → Q t t') {x : Option S}
    {y : Option S'} (h : Together R x y) : Together Q x y := by
  cases x with
  | none => cases y <;> exact h
  | some t =>
    cases y with
    | none => exact h
    | some t' => exact hRQ t t' h

/-- Results that belong together through a third one. -/
theorem Together.trans {R : S → S' → Prop} {R' : S' → S'' → Prop} {Q : S → S'' → Prop}
    (hQ : ∀ t t' t'',R t t' → R' t' t'' → Q t t'') {x : Option S} {y : Option S'}
    {z : Option S''} (h : Together R x y) (h' : Together R' y z) : Together Q x z := by
  cases x with
  | none =>
    cases y with
    | none => cases z <;> exact h'
    | some t' => exact h.elim
  | some t =>
    cases y with
    | none => exact h.elim
    | some t' =>
      cases z with
      | none => exact h'.elim
      | some t'' => exact hQ t t' t'' h h'

/-- The same two results the other way round. -/
theorem Together.symm {R : S → S' → Prop} {Q : S' → S → Prop} (hQ : ∀ t t',R t t' → Q t' t)
    {x : Option S} {y : Option S'} (h : Together R x y) : Together Q y x := by
  cases x with
  | none => cases y <;> exact h
  | some t =>
    cases y with
    | none => exact h
    | some t' => exact hQ t t' h

section Alike

variable {A : Watched S E V O} {A' : Watched S' E V O} {A'' : Watched S'' E V O}

/-- What looks alike to a third component looks alike. -/
theorem Watched.Alike.trans {s : S} {s' : S'} {s'' : S''} {es : List E}
    (h : A.Alike A' s s' es) (h' : A'.Alike A'' s' s'' es) : A.Alike A'' s s'' es := by
  induction es generalizing s s' s'' with
  | nil => exact Eq.trans h h'
  | cons e es ih =>
    have hrest : ∀ t t' t'',A.Alike A' t t' es → A'.Alike A'' t' t'' es → A.Alike A'' t t'' es :=
      fun t t' t'' => ih
    exact ⟨h.1.trans h'.1,h.2.1.trans h'.2.1,Together.trans hrest h.2.2 h'.2.2⟩

/-- To look alike is symmetric. -/
theorem Watched.Alike.symm {s : S} {s' : S'} {es : List E} (h : A.Alike A' s s' es) :
    A'.Alike A s' s es := by
  induction es generalizing s s' with
  | nil => exact Eq.symm h
  | cons e es ih => exact ⟨h.1.symm,h.2.1.symm,h.2.2.symm fun _ _ ht => ih ht⟩

/-- A relation of the states of two components that shows nothing and is kept
by every event. -/
structure Lockstep (A : Watched S E V O) (A' : Watched S' E V O) (R : S → S' → Prop) : Prop where
  /-- Related states are seen alike. -/
  seen : ∀ s s',R s s' → A.seen s=A'.seen s'
  /-- An event puts out the same in related states. -/
  out : ∀ s s' e,R s s' → A.out s e=A'.out s' e
  /-- Its results are related again. -/
  step : ∀ s s' e,R s s' → Together R (A.step s e) (A'.step s' e)

/-- The rule for components in step: in related states they look alike. -/
theorem Lockstep.alike {R : S → S' → Prop} (hR : Lockstep A A' R) {s : S} {s' : S'}
    (h : R s s') (es : List E) : A.Alike A' s s' es := by
  induction es generalizing s s' with
  | nil => exact hR.seen s s' h
  | cons e es ih =>
    exact ⟨hR.seen s s' h,hR.out s s' e h,(hR.step s s' e h).mono fun t t' ht => ih ht⟩

end Alike

/-- The first event that uses the buffer fills it. -/
def FirstFills (step : S → E → Option S) (Uses Fills : S → E → Prop) : S → List E → Prop
  | _,[] => True
  | s,e::es => (Uses s e → Fills s e) ∧
    (¬Uses s e → ∀ t,step s e=some t → FirstFills step Uses Fills t es)

/-- An event that does not use the buffer leaves it to the next ones. -/
theorem FirstFills.skip {step : S → E → Option S} {Uses Fills : S → E → Prop} {s t : S} {e : E}
    {es : List E} (hu : ¬Uses s e) (hs : step s e=some t)
    (h : FirstFills step Uses Fills t es) : FirstFills step Uses Fills s (e::es) := by
  refine ⟨fun huse => absurd huse hu,fun _ u hstep => ?_⟩
  rw [hs] at hstep
  cases hstep
  exact h

/-- After the first use nothing more is asked. -/
theorem FirstFills.first {step : S → E → Option S} {Uses Fills : S → E → Prop} {s : S} {e : E}
    (es : List E) (hu : Uses s e) (hf : Fills s e) : FirstFills step Uses Fills s (e::es) :=
  ⟨fun _ => hf,fun hnot => absurd hu hnot⟩

section Buffer

variable {A : Watched S E V O} {put : B → S → S} {Uses Fills : S → E → Prop}

/-- Until the buffer is used nothing tells what it holds. -/
structure Hidden (A : Watched S E V O) (put : B → S → S) (Uses : S → E → Prop) : Prop where
  /-- It is not seen. -/
  seen : ∀ b s,A.seen (put b s)=A.seen s
  /-- An event that does not use it puts out nothing of it. -/
  out : ∀ b s e,¬Uses s e → A.out (put b s) e=A.out s e
  /-- Such an event leaves it alone. -/
  step : ∀ b s e,¬Uses s e → A.step (put b s) e=(A.step s e).map (put b)

/-- If the first use fills the buffer, it is never seen what it held before. -/
theorem alike_put (h : Hidden A put Uses) {R : S → S → Prop} (hR : Lockstep A A R)
    (hfill : ∀ b s e,Uses s e → Fills s e →
      A.out s e=A.out (put b s) e ∧ Together R (A.step s e) (A.step (put b s) e))
    (b : B) {s : S} {es : List E} (hs : FirstFills A.step Uses Fills s es) :
    A.Alike A s (put b s) es := by
  induction es generalizing s with
  | nil => exact (h.seen b s).symm
  | cons e es ih =>
    by_cases hu : Uses s e
    · obtain ⟨ho,ht⟩ := hfill b s e hu (hs.1 hu)
      exact ⟨(h.seen b s).symm,ho,ht.mono fun t t' ht => hR.alike ht es⟩
    · refine ⟨(h.seen b s).symm,(h.out b s e hu).symm,?_⟩
      rw [h.step b s e hu]
      cases ht : A.step s e with
      | none => trivial
      | some t => exact ih (hs.2 hu t ht)

/-- If it is never seen what the buffer held, and an event that does not fill
it shows it, the first use fills it. -/
theorem firstFills_of_alike (h : Hidden A put Uses)
    (hfill : ∀ s e,Uses s e → (∀ b,A.out s e=A.out (put b s) e) → Fills s e) {s : S}
    {es : List E} (hs : ∀ b,A.Alike A s (put b s) es) : FirstFills A.step Uses Fills s es := by
  induction es generalizing s with
  | nil => trivial
  | cons e es ih =>
    refine ⟨fun hu => hfill s e hu fun b => (hs b).2.1,fun hu t ht => ih fun b => ?_⟩
    have hnext := (hs b).2.2
    rw [h.step b s e hu,ht] at hnext
    exact hnext

end Buffer

end SystemCDma.WatchedRun
