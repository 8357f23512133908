import Mathlib.Data.List.Basic

/-!
# Runs of a partial step function

A component is a state, its events and a step that may refuse an event. A run
takes a list of events in order and ends at the first refusal. Three rules
carry all later proofs: an invariant kept by one step holds after every run,
a step that never refuses gives every run a result, and a view of the state
that moves only on observed events is a fold over exactly those events.
-/

namespace SystemCDma.EventRun

variable {S E V L : Type*}

/-- The state after a list of events; a refused event ends the run. -/
def run (step : S → E → Option S) : S → List E → Option S
  | s,[] => some s
  | s,e::es => (step s e).bind fun t => run step t es

/-- The empty list of events leaves the state where it is. -/
@[simp] theorem run_nil (step : S → E → Option S) (s : S) : run step s []=some s := rfl

/-- A run over a nonempty list takes its first event and then the others. -/
theorem run_cons (step : S → E → Option S) (s : S) (e : E) (es : List E) :
    run step s (e::es)=(step s e).bind fun t => run step t es := rfl

/-- A one-event run is one step. -/
@[simp] theorem run_singleton (step : S → E → Option S) (s : S) (e : E) :
    run step s [e]=step s e := by
  rw [run_cons]
  cases step s e <;> rfl

/-- A run over two lists is the second run from the state the first reached. -/
theorem run_append (step : S → E → Option S) (s : S) (es fs : List E) :
    run step s (es++fs)=(run step s es).bind fun t => run step t fs := by
  induction es generalizing s with
  | nil => rfl
  | cons e es ih =>
    rw [List.cons_append,run_cons,run_cons]
    cases step s e with
    | none => rfl
    | some t => exact ih t

/-- A successful run over a nonempty list passes through the state its first
event reaches. -/
theorem run_cons_some {step : S → E → Option S} {s u : S} {e : E} {es : List E}
    (h : run step s (e::es)=some u) : ∃ t,step s e=some t ∧ run step t es=some u := by
  rw [run_cons] at h
  exact Option.bind_eq_some_iff.mp h

/-- Two consecutive runs compose. -/
theorem run_trans {step : S → E → Option S} {s t u : S} {es fs : List E}
    (h₁ : run step s es=some t) (h₂ : run step t fs=some u) :
    run step s (es++fs)=some u := by
  rw [run_append,h₁]
  exact h₂

/-- An event does not occur in a list, or the list splits at its last
occurrence. -/
theorem last_split (e : E) (es : List E) :
    (∀ f∈es,f≠e) ∨ ∃ pre post,es=pre++e::post ∧ ∀ f∈post,f≠e := by
  by_cases h : e∈es
  · obtain ⟨back,front,hrev,hback⟩ := List.eq_append_cons_of_mem (List.mem_reverse.mpr h)
    refine Or.inr ⟨front.reverse,back.reverse,?_,fun f hf hfe => ?_⟩
    · rw [←List.reverse_reverse es,hrev,List.reverse_append,List.reverse_cons,List.append_assoc]
      rfl
    · rw [hfe] at hf
      exact hback (List.mem_reverse.mp hf)
  · exact Or.inl fun f hf hfe => h (hfe ▸ hf)

/-- The invariant rule, for events that satisfy a side condition: what every
permitted step keeps holds at the end of every run of permitted events. -/
theorem run_invariant_of {step : S → E → Option S} {Inv : S → Prop} {P : E → Prop}
    (hstep : ∀ s e t,Inv s → P e → step s e=some t → Inv t)
    {s t : S} {es : List E} (hs : Inv s) (hok : ∀ e∈es,P e)
    (h : run step s es=some t) : Inv t := by
  induction es generalizing s with
  | nil =>
    cases h
    exact hs
  | cons e es ih =>
    obtain ⟨u,hu,hrest⟩ := run_cons_some h
    have he := hok e List.mem_cons_self
    exact ih (hstep s e u hs he hu) (fun f hf => hok f (List.mem_cons_of_mem _ hf)) hrest

/-- The invariant rule without a side condition on the events. -/
theorem run_invariant {step : S → E → Option S} {Inv : S → Prop}
    (hstep : ∀ s e t,Inv s → step s e=some t → Inv t)
    {s t : S} {es : List E} (hs : Inv s) (h : run step s es=some t) : Inv t :=
  run_invariant_of (P := fun _ => True) (fun s e t hi _ he => hstep s e t hi he) hs
    (fun _ _ => trivial) h

/-- Every step of the run meets a condition on its event and on the state
before it. -/
def Along (step : S → E → Option S) (C : S → E → Prop) (s : S) (es : List E) : Prop :=
  ∀ pre e post u,es=pre++e::post → run step s pre=some u → C u e

/-- The condition holds of the first step and along the rest of the run. -/
theorem Along.cons {step : S → E → Option S} {C : S → E → Prop} {s t : S} {e : E} {es : List E}
    (h : Along step C s (e::es)) (hstep : step s e=some t) : C s e ∧ Along step C t es := by
  refine ⟨h [] e es s rfl rfl,fun pre f post u hes hrun => h (e::pre) f post u ?_ ?_⟩
  · rw [hes,List.cons_append]
  · rw [run_cons,hstep]
    exact hrun

/-- What holds along a run holds along its first part. -/
theorem Along.take {step : S → E → Option S} {C : S → E → Prop} {s : S} {es pre post : List E}
    (h : Along step C s es) (hes : es=pre++post) : Along step C s pre := by
  intro front e back u hpre hrun
  refine h front e (back++post) u ?_ hrun
  rw [hes,hpre,List.append_assoc,List.cons_append]

/-- Nothing is asked of the empty run. -/
theorem along_nil {step : S → E → Option S} {C : S → E → Prop} {s : S} : Along step C s [] := by
  intro pre e post u h
  exact absurd h.symm (List.append_ne_nil_of_right_ne_nil pre (List.cons_ne_nil e post))

/-- A condition along a run is checked step by step. -/
theorem along_cons {step : S → E → Option S} {C : S → E → Prop} {s : S} {e : E} {es : List E}
    (hc : C s e) (h : ∀ t,step s e=some t → Along step C t es) : Along step C s (e::es) := by
  intro pre f post u hes hrun
  cases pre with
  | nil =>
    cases hrun
    obtain ⟨rfl,_⟩ := List.cons.inj hes
    exact hc
  | cons g pre =>
    obtain ⟨rfl,htail⟩ := List.cons.inj hes
    obtain ⟨t,ht,hrest⟩ := run_cons_some hrun
    exact h t ht pre f post u htail hrest

/-- The invariant rule for runs whose steps meet a condition. -/
theorem run_invariant_along {step : S → E → Option S} {Inv : S → Prop} {C : S → E → Prop}
    (hstep : ∀ s e t,Inv s → C s e → step s e=some t → Inv t)
    {s t : S} {es : List E} (hs : Inv s) (hok : Along step C s es)
    (h : run step s es=some t) : Inv t := by
  induction es generalizing s with
  | nil =>
    cases h
    exact hs
  | cons e es ih =>
    obtain ⟨u,hu,hrest⟩ := run_cons_some h
    obtain ⟨hc,hok'⟩ := hok.cons hu
    exact ih (hstep s e u hs hc hu) hok' hrest

/-- A step that refuses no event gives every run a final state. -/
theorem run_total {step : S → E → Option S} (hstep : ∀ s e,∃ t,step s e=some t)
    (s : S) (es : List E) : ∃ t,run step s es=some t := by
  induction es generalizing s with
  | nil => exact ⟨s,rfl⟩
  | cons e es ih =>
    obtain ⟨t,ht⟩ := hstep s e
    obtain ⟨u,hu⟩ := ih t
    exact ⟨u,by rw [run_cons,ht]; exact hu⟩

/-- The progress rule: if every state short of a goal has an event of some kind
that keeps an invariant and decreases a measure, a run of such events reaches
the goal. -/
theorem reaches_of_progress {step : S → E → Option S} {C : E → Prop} {Inv Goal : S → Prop}
    {size : S → ℕ}
    (hstep : ∀ s,Inv s → ¬Goal s → ∃ e t,C e ∧ step s e=some t ∧ Inv t ∧ size t<size s) {s : S}
    (hs : Inv s) : ∃ es t,(∀ e∈es,C e) ∧ run step s es=some t ∧ Inv t ∧ Goal t := by
  induction hn : size s using Nat.strongRecOn generalizing s with
  | ind n ih =>
    by_cases hgoal : Goal s
    · exact ⟨[],s,fun _ he => (nomatch he),rfl,hs,hgoal⟩
    · obtain ⟨e,t,he,ht,hinv,hlt⟩ := hstep s hs hgoal
      obtain ⟨es,u,hes,hu,hgoal'⟩ := ih (size t) (hn ▸ hlt) hinv rfl
      exact ⟨e::es,u,List.forall_mem_cons.mpr ⟨he,hes⟩,by rw [run_cons,ht]; exact hu,hgoal'⟩

/-- Advance a view by an observed event, or leave it when nothing is observed. -/
def advance (next : V → L → V) (v : V) : Option L → V
  | none => v
  | some l => next v l

/-- Factorisation: a view whose every step depends only on the view and on
what is observed of the event is, after a run, the fold of the observations.
Two runs with the same observations therefore end with the same view. -/
theorem view_run {step : S → E → Option S} {view : S → V} {observe : E → Option L}
    {next : V → L → V}
    (hstep : ∀ s e t,step s e=some t → view t=advance next (view s) (observe e))
    {s t : S} {es : List E} (h : run step s es=some t) :
    view t=(es.filterMap observe).foldl next (view s) := by
  induction es generalizing s with
  | nil =>
    cases h
    rfl
  | cons e es ih =>
    obtain ⟨u,hu,hrest⟩ := run_cons_some h
    have hv := hstep s e u hu
    rw [ih hrest,hv]
    cases ho : observe e with
    | none => rw [List.filterMap_cons_none ho]; rfl
    | some l => rw [List.filterMap_cons_some ho]; rfl

/-- What is observed along a run, where an observation may also depend on the
state before the event. -/
def observed (step : S → E → Option S) (observe : S → E → Option L) : S → List E → List L
  | _,[] => []
  | s,e::es => (observe s e).toList++match step s e with
    | some t => observed step observe t es
    | none => []

/-- A view that takes every observed value and otherwise stays shows the last
one at the end of the run. -/
theorem last_observed {step : S → E → Option S} {observe : S → E → Option L} {view : S → L}
    (hstep : ∀ s e t,step s e=some t → view t=(observe s e).getD (view s))
    {s t : S} {es : List E} (h : run step s es=some t) :
    view t=(observed step observe s es).getLastD (view s) := by
  induction es generalizing s with
  | nil =>
    cases h
    rfl
  | cons e es ih =>
    obtain ⟨u,hu,hrest⟩ := run_cons_some h
    have hv := hstep s e u hu
    rw [ih hrest,hv,observed,hu]
    cases observe s e with
    | none => rfl
    | some l => exact List.getLastD_cons.symm

/-- The observations of two runs, one after the other. -/
theorem observed_append {step : S → E → Option S} (observe : S → E → Option L) {s t : S}
    {es : List E} (h : run step s es=some t) (fs : List E) :
    observed step observe s (es++fs)=observed step observe s es++observed step observe t fs := by
  induction es generalizing s with
  | nil =>
    cases h
    rfl
  | cons e es ih =>
    obtain ⟨u,hu,hrest⟩ := run_cons_some h
    rw [List.cons_append,observed,observed,hu]
    dsimp only
    rw [ih hrest,List.append_assoc]

section Simulation

variable {T : Type*} {step : S → E → Option S} {step' : T → E → Option T} {R : S → T → Prop}
  {P : E → Prop}

/-- The simulation rule for runs: states in a relation that every permitted
event keeps reach related states. -/
theorem run_simulation
    (hstep : ∀ s t e,R s t → P e → ∃ s' t',step s e=some s' ∧ step' t e=some t' ∧ R s' t')
    {s : S} {t : T} {es : List E} (hR : R s t) (hok : ∀ e∈es,P e) :
    ∃ s' t',run step s es=some s' ∧ run step' t es=some t' ∧ R s' t' := by
  induction es generalizing s t with
  | nil => exact ⟨s,t,rfl,rfl,hR⟩
  | cons e es ih =>
    obtain ⟨s',t',hs,ht,hR'⟩ := hstep s t e hR (hok e List.mem_cons_self)
    obtain ⟨s'',t'',hs',ht',hR''⟩ := ih hR' fun f hf => hok f (List.mem_cons_of_mem _ hf)
    exact ⟨s'',t'',by rw [run_cons,hs]; exact hs',by rw [run_cons,ht]; exact ht',hR''⟩

/-- Their observations are the same if those of related states are. -/
theorem observed_simulation {observe : S → E → Option L} {observe' : T → E → Option L}
    (hstep : ∀ s t e,R s t → P e → ∃ s' t',step s e=some s' ∧ step' t e=some t' ∧ R s' t')
    (hobs : ∀ s t e,R s t → observe s e=observe' t e) {s : S} {t : T} {es : List E} (hR : R s t)
    (hok : ∀ e∈es,P e) : observed step observe s es=observed step' observe' t es := by
  induction es generalizing s t with
  | nil => rfl
  | cons e es ih =>
    obtain ⟨s',t',hs,ht,hR'⟩ := hstep s t e hR (hok e List.mem_cons_self)
    rw [observed,observed,hs,ht,hobs s t e hR]
    dsimp only
    rw [ih hR' fun f hf => hok f (List.mem_cons_of_mem _ hf)]

end Simulation

section Refinement

variable {T : Type*}

/-- A path of a specification that may choose its next state. -/
def Path (next : T → E → T → Prop) : T → List E → T → Prop
  | t,[],u => t=u
  | t,e::es,u => ∃ v,next t e v ∧ Path next v es u

/-- A path goes on with one more step. -/
theorem Path.snoc {next : T → E → T → Prop} {t u v : T} {es : List E} {e : E}
    (h : Path next t es u) (hnext : next u e v) : Path next t (es++[e]) v := by
  induction es generalizing t with
  | nil =>
    cases h
    exact ⟨v,hnext,rfl⟩
  | cons f es ih =>
    obtain ⟨w,hw,hrest⟩ := h
    exact ⟨w,hw,ih hrest⟩

end Refinement

section Answers

variable {T A : Type*}

/-- What a server answers to a list of calls; a call it does not survive ends
the list without answers. -/
def answers (serve : S → E → Option (S×A)) : S → List E → Option (List A)
  | _,[] => some []
  | s,e::es => (serve s e).bind fun r => (answers serve r.1 es).map (r.2::·)

/-- Answers to a nonempty list begin with the answer to its first call. -/
theorem answers_cons {serve : S → E → Option (S×A)} {s t : S} {e : E} {a : A}
    (h : serve s e=some (t,a)) (es : List E) :
    answers serve s (e::es)=(answers serve t es).map (a::·) := by
  rw [answers,h]
  rfl

/-- The simulation rule: servers in a relation that every permitted call keeps,
with the same answer on both sides, or that it ends on both sides, answer the
same lists of calls alike. -/
theorem answers_lockstep {serve : S → E → Option (S×A)} {serve' : T → E → Option (T×A)}
    {R : S → T → Prop} {P : E → Prop}
    (hstep : ∀ s t e,R s t → P e → (serve s e=none ∧ serve' t e=none) ∨
      ∃ s' t' a,serve s e=some (s',a) ∧ serve' t e=some (t',a) ∧ R s' t')
    {s : S} {t : T} {es : List E} (hR : R s t) (hok : ∀ e∈es,P e) :
    answers serve s es=answers serve' t es := by
  induction es generalizing s t with
  | nil => rfl
  | cons e es ih =>
    rcases hstep s t e hR (hok e List.mem_cons_self) with ⟨hs,ht⟩|⟨s',t',a,hs,ht,hR'⟩
    · rw [answers,answers,hs,ht]
      rfl
    · rw [answers_cons hs,answers_cons ht,ih hR' fun f hf => hok f (List.mem_cons_of_mem _ hf)]

/-- The rule for servers that survive every permitted call. -/
theorem answers_simulation {serve : S → E → Option (S×A)} {serve' : T → E → Option (T×A)}
    {R : S → T → Prop} {P : E → Prop}
    (hstep : ∀ s t e,R s t → P e →
      ∃ s' t' a,serve s e=some (s',a) ∧ serve' t e=some (t',a) ∧ R s' t')
    {s : S} {t : T} {es : List E} (hR : R s t) (hok : ∀ e∈es,P e) :
    answers serve s es=answers serve' t es :=
  answers_lockstep (fun s t e h he => Or.inr (hstep s t e h he)) hR hok

/-- A server that survives every call answers every list of calls. -/
theorem answers_total {serve : S → E → Option (S×A)} (h : ∀ s e,(serve s e).isSome=true) (s : S)
    (es : List E) : (answers serve s es).isSome=true := by
  induction es generalizing s with
  | nil => rfl
  | cons e es ih =>
    obtain ⟨⟨t,a⟩,hs⟩ := Option.isSome_iff_exists.mp (h s e)
    rw [answers_cons hs,Option.isSome_map]
    exact ih t

end Answers

end SystemCDma.EventRun
