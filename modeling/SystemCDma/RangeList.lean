import Mathlib.Order.Interval.Set.Defs
import Mathlib.Order.MinMax

/-!
# Lists of ascending ranges

Closed ranges of a linear order, kept in a list so that each one ends before
the next begins. Ranges of such a list do not meet. A range grown over all
ranges it meets meets no others than before, so one pass over the list is
enough. Things that sit on such ranges define one function: each point is read
from the only thing around it, or is a default where there is none.
-/

namespace SystemCDma.RangeList

/-- A closed range. -/
@[ext] structure Range (α : Type*) where
  /-- First point. -/
  lo : α
  /-- Last point. -/
  hi : α
  deriving DecidableEq,Repr

section Order

variable {α : Type*} [LinearOrder α]

/-- The points of a range. -/
abbrev Range.points (r : Range α) : Set α := Set.Icc r.lo r.hi

/-- Two ranges whose ends do not pass each other. -/
def Range.Meets (r s : Range α) : Prop := r.lo ≤ s.hi ∧ s.lo ≤ r.hi

/-- Meeting is decided by two comparisons. -/
instance (r s : Range α) : Decidable (r.Meets s) := inferInstanceAs (Decidable (_ ∧ _))

/-- The smallest range around two. -/
def Range.hull (r s : Range α) : Range α := ⟨min r.lo s.lo,max r.hi s.hi⟩

/-- Grow a range over every range of the list that it meets on the way. -/
def cover (r : Range α) (rs : List (Range α)) : Range α :=
  rs.foldl (fun acc s => if s.Meets acc then acc.hull s else acc) r

/-- No range is empty, and each ends before all later ones begin. -/
structure Ascending (rs : List (Range α)) : Prop where
  /-- No range is empty. -/
  valid : ∀ r∈rs,r.lo ≤ r.hi
  /-- The ranges are in order and apart. -/
  apart : rs.Pairwise fun r s => r.hi < s.lo

/-- Meeting is symmetric. -/
theorem Range.Meets.symm {r s : Range α} (h : r.Meets s) : s.Meets r := ⟨h.2,h.1⟩

/-- Ranges with a common point meet. -/
theorem Range.meets_of_mem {r s : Range α} {a : α} (hr : a∈r.points) (hs : a∈s.points) :
    r.Meets s := ⟨hr.1.trans hs.2,hs.1.trans hr.2⟩

/-- The rest of an ascending list ascends. -/
theorem Ascending.tail {r : Range α} {rs : List (Range α)} (h : Ascending (r::rs)) :
    Ascending rs :=
  ⟨fun s hs => h.valid s (List.mem_cons_of_mem _ hs),(List.pairwise_cons.mp h.apart).2⟩

/-- What is left of an ascending list ascends. -/
theorem Ascending.sublist {rs ss : List (Range α)} (h : Ascending rs) (hs : ss.Sublist rs) :
    Ascending ss := ⟨fun r hr => h.valid r (hs.subset hr),h.apart.sublist hs⟩

/-- Two things on ranges of an ascending list that meet are the same one. -/
theorem Ascending.eq_of_meets {γ : Type*} {range : γ → Range α} {xs : List γ}
    (h : Ascending (xs.map range)) {x y : γ} (hx : x∈xs) (hy : y∈xs)
    (hm : (range x).Meets (range y)) : x=y := by
  induction xs with
  | nil => cases hx
  | cons u xs ih =>
    have hapart := (List.pairwise_cons.mp h.apart).1
    rcases List.mem_cons.mp hx with rfl|hx' <;> rcases List.mem_cons.mp hy with rfl|hy'
    · rfl
    · exact absurd hm.2 (not_le.mpr (hapart _ (List.mem_map_of_mem hy')))
    · exact absurd hm.1 (not_le.mpr (hapart _ (List.mem_map_of_mem hx')))
    · exact ih h.tail hx' hy'

/-- A range fits between those that end before it and those that begin after it. -/
theorem Ascending.insert {pre post : List (Range α)} {r : Range α} (h : Ascending (pre++post))
    (hr : r.lo ≤ r.hi) (hpre : ∀ s∈pre,s.hi < r.lo) (hpost : ∀ s∈post,r.hi < s.lo) :
    Ascending (pre++r::post) := by
  obtain ⟨hvalid,hapart⟩ := h
  obtain ⟨hp,hq,hpq⟩ := List.pairwise_append.mp hapart
  constructor
  · intro s hs
    rcases List.mem_append.mp hs with hs|hs
    · exact hvalid s (List.mem_append_left _ hs)
    · rcases List.mem_cons.mp hs with rfl|hs
      · exact hr
      · exact hvalid s (List.mem_append_right _ hs)
  · refine List.pairwise_append.mpr ⟨hp,List.pairwise_cons.mpr ⟨hpost,hq⟩,fun s hs t ht => ?_⟩
    rcases List.mem_cons.mp ht with rfl|ht
    · exact hpre s hs
    · exact hpq s hs t ht

/-- A range that meets the hull of two that meet, meets one of them. -/
theorem Range.meets_hull {r s t : Range α} (h : s.Meets r) (hvalid : t.lo≤t.hi)
    (ht : t.Meets (r.hull s)) : t.Meets r ∨ t.Meets s := by
  obtain ⟨h₁,h₂⟩ := h
  obtain ⟨hlo,hhi⟩ := ht
  rcases le_max_iff.mp hlo with hlo|hlo <;> rcases min_le_iff.mp hhi with hhi|hhi
  · exact Or.inl ⟨hlo,hhi⟩
  · by_cases hr : r.lo≤t.hi
    · exact Or.inl ⟨hlo,hr⟩
    · exact Or.inr ⟨(hvalid.trans (not_le.mp hr).le).trans h₂,hhi⟩
  · by_cases hr : t.lo ≤ r.hi
    · exact Or.inl ⟨hr,hhi⟩
    · exact Or.inr ⟨hlo,(h₁.trans (not_le.mp hr).le).trans hvalid⟩
  · exact Or.inr ⟨hlo,hhi⟩

/-- Growing over one more range. -/
theorem cover_cons (r s : Range α) (rs : List (Range α)) :
    cover r (s::rs)=cover (if s.Meets r then r.hull s else r) rs := rfl

/-- The grown range contains the one it started from. -/
theorem cover_contains (r : Range α) (rs : List (Range α)) :
    (cover r rs).lo ≤ r.lo ∧ r.hi≤(cover r rs).hi := by
  induction rs generalizing r with
  | nil => exact ⟨le_rfl,le_rfl⟩
  | cons s rs ih =>
    rw [cover_cons]
    obtain ⟨hlo,hhi⟩ := ih (if s.Meets r then r.hull s else r)
    split_ifs at hlo hhi ⊢ with hm
    · exact ⟨hlo.trans (min_le_left _ _),(le_max_left _ _).trans hhi⟩
    · exact ⟨hlo,hhi⟩

/-- A range that meets no other range of the list meets the grown range only
if it meets the first one: what joins cannot bring it in. -/
theorem cover_meets {rs : List (Range α)} (r : Range α) {t : Range α} (hvalid : t.lo≤t.hi)
    (ht : ∀ s∈rs,t.Meets s → t=s ∨ t.Meets r) : t.Meets (cover r rs) ↔ t.Meets r := by
  induction rs generalizing r with
  | nil => exact Iff.rfl
  | cons s rs ih =>
    rw [cover_cons]
    have hrest : ∀ u∈rs,t.Meets u → t=u ∨ t.Meets r :=
      fun u hu => ht u (List.mem_cons_of_mem _ hu)
    by_cases hm : s.Meets r
    · have hhull : t.Meets (r.hull s) ↔ t.Meets r := by
        constructor
        · intro hth
          rcases Range.meets_hull hm hvalid hth with hr|hs
          · exact hr
          · rcases ht s List.mem_cons_self hs with rfl|hr
            · exact hm
            · exact hr
        · exact fun hr => ⟨hr.1.trans (le_max_left _ _),(min_le_left _ _).trans hr.2⟩
      rw [if_pos hm,←hhull]
      exact ih _ fun u hu htu => (hrest u hu htu).imp_right hhull.mpr
    · rw [if_neg hm]
      exact ih r hrest

/-- It contains every range of the list that meets the first one, if the
ranges of the list do not meet each other. -/
theorem cover_absorbs {rs : List (Range α)} (r : Range α) {t : Range α} (ht : t∈rs)
    (hm : t.Meets r) : (cover r rs).lo≤t.lo ∧ t.hi≤(cover r rs).hi := by
  induction rs generalizing r with
  | nil => cases ht
  | cons s rs ih =>
    rw [cover_cons]
    rcases List.mem_cons.mp ht with rfl|ht
    · rw [if_pos hm]
      obtain ⟨hlo,hhi⟩ := cover_contains (r.hull t) rs
      exact ⟨hlo.trans (min_le_right _ _),(le_max_right _ _).trans hhi⟩
    · refine ih _ ht ?_
      split_ifs with hs
      · exact ⟨hm.1.trans (le_max_left _ _),(min_le_left _ _).trans hm.2⟩
      · exact hm

/-- The ends of the grown range are ends of ranges it was made of. -/
theorem cover_ends {P Q : α → Prop} {rs : List (Range α)} {r : Range α} (hP : P r.lo)
    (hQ : Q r.hi) (hrs : ∀ s∈rs,P s.lo ∧ Q s.hi) : P (cover r rs).lo ∧ Q (cover r rs).hi := by
  induction rs generalizing r with
  | nil => exact ⟨hP,hQ⟩
  | cons s rs ih =>
    rw [cover_cons]
    have hs := hrs s List.mem_cons_self
    have hrest := fun u hu => hrs u (List.mem_cons_of_mem _ hu)
    split_ifs
    · have hlo : P (min r.lo s.lo) := by rcases min_choice r.lo s.lo with h|h <;> rw [h]
                                         exacts [hP,hs.1]
      have hhi : Q (max r.hi s.hi) := by rcases max_choice r.hi s.hi with h|h <;> rw [h]
                                         exacts [hQ,hs.2]
      exact ih hlo hhi hrest
    · exact ih hP hQ hrest

/-- The one-pass rule: a range of an ascending list meets the grown range only
if it meets the first one, and then it lies inside the grown range. -/
theorem Ascending.cover {rs : List (Range α)} (h : Ascending rs) (r : Range α) {t : Range α}
    (ht : t∈rs) (hm : t.Meets (cover r rs)) :
    t.Meets r ∧ (RangeList.cover r rs).lo≤t.lo ∧ t.hi≤(RangeList.cover r rs).hi := by
  have hid : Ascending (rs.map id) := by rwa [List.map_id]
  have hr := (cover_meets r (h.valid t ht) fun s hs hts =>
    Or.inl (hid.eq_of_meets ht hs hts)).mp hm
  exact ⟨hr,cover_absorbs r ht hr⟩

end Order

section View

variable {α β γ : Type*} [LinearOrder α] (range : γ → Range α) (value : γ → α → β) (d : β)

/-- The value at a point: that of the first thing around it, or a default. -/
def view (xs : List γ) (a : α) : β :=
  match xs.find? fun x => decide ((range x).lo≤a ∧ a≤(range x).hi) with
  | some x => value x a
  | none => d

/-- Outside all ranges there is the default. -/
theorem view_default {xs : List γ} {a : α} (h : ∀ x∈xs,a∉(range x).points) :
    view range value d xs a=d := by
  have hnone : xs.find? (fun x => decide ((range x).lo≤a ∧ a≤(range x).hi))=none :=
    List.find?_eq_none.mpr fun x hx => by rw [decide_eq_true_eq]; exact h x hx
  rw [view,hnone]

/-- A point in a range of an ascending list is read from what sits on it. -/
theorem view_eq {xs : List γ} (h : Ascending (xs.map range)) {x : γ} (hx : x∈xs) {a : α}
    (ha : a∈(range x).points) : view range value d xs a=value x a := by
  induction xs with
  | nil => cases hx
  | cons y xs ih =>
    unfold view
    by_cases hy : (range y).lo≤a ∧ a≤(range y).hi
    · rw [List.find?_cons_of_pos (by rw [decide_eq_true_eq]; exact hy)]
      rcases List.mem_cons.mp hx with rfl|hx
      · rfl
      · have hapart := (List.pairwise_cons.mp h.apart).1 _ (List.mem_map_of_mem hx)
        exact absurd (hy.2.trans_lt hapart) (not_lt.mpr ha.1)
    · rw [List.find?_cons_of_neg (by rw [decide_eq_true_eq]; exact hy)]
      rcases List.mem_cons.mp hx with rfl|hx
      · exact absurd ha hy
      · exact ih h.tail hx

/-- Two lists define the same function if the second is ascending, leaves out
no point of the first, and has the values of the first on its ranges. -/
theorem view_congr {xs ys : List γ} (h : Ascending (ys.map range))
    (hin : ∀ x∈xs,∃ y∈ys,(range x).points⊆(range y).points)
    (hval : ∀ y∈ys,∀ a∈(range y).points,value y a=view range value d xs a) :
    view range value d ys=view range value d xs := by
  funext a
  by_cases ha : ∃ y∈ys,a∈(range y).points
  · obtain ⟨y,hy,ha⟩ := ha
    rw [view_eq range value d h hy ha,hval y hy a ha]
  · have hout : ∀ y∈ys,a∉(range y).points := fun y hy hay => ha ⟨y,hy,hay⟩
    rw [view_default range value d hout,view_default range value d]
    intro x hx hax
    obtain ⟨y,hy,hsub⟩ := hin x hx
    exact hout y hy (hsub hax)

end View

section Pages

variable (p : ℕ)

/-- Round a range outwards to pages of a size. -/
def Range.round (r : Range ℕ) : Range ℕ := ⟨r.lo-r.lo%p,r.hi-r.hi%p+(p-1)⟩

/-- A range of whole pages. -/
def Range.Aligned (r : Range ℕ) : Prop := p∣r.lo ∧ p∣r.hi+1

variable {p}

/-- A multiple of the page size is below a number if it is below the start of its page. -/
theorem le_page_start {m a : ℕ} (hm : p∣m) : m≤a-a%p ↔ m≤a := by
  obtain ⟨q,rfl⟩ := hm
  have hdiv := Nat.div_add_mod a p
  have hstart : a-a%p=p*(a/p) := by omega
  rw [hstart]
  constructor
  · intro h
    omega
  · intro h
    rcases Nat.eq_zero_or_pos p with rfl|hp
    · simp
    · exact Nat.mul_le_mul_left _ ((Nat.le_div_iff_mul_le hp).mpr (by rwa [Nat.mul_comm]))

/-- The end of the page of a number is below a multiple of the page size if
the number is. -/
theorem page_end_lt {m a : ℕ} (hp : 0<p) (hm : p∣m) : a-a%p+(p-1) < m ↔ a < m := by
  have hmod := Nat.mod_lt a hp
  have hstart := Nat.mod_le a p
  obtain ⟨q,rfl⟩ := hm
  have hdiv := Nat.div_add_mod a p
  have hs : a-a%p=p*(a/p) := by omega
  rw [hs]
  constructor
  · intro h
    omega
  · intro h
    have hq : a/p+1≤q := (Nat.div_lt_iff_lt_mul hp).mpr (by rwa [Nat.mul_comm])
    have hmul := Nat.mul_le_mul_left p hq
    rw [Nat.mul_add,Nat.mul_one] at hmul
    omega

/-- Rounding makes whole pages. -/
theorem Range.round_aligned (hp : 0<p) (r : Range ℕ) : (r.round p).Aligned p := by
  have h₁ := Nat.div_add_mod r.lo p
  have h₂ := Nat.div_add_mod r.hi p
  refine ⟨⟨r.lo/p,?_⟩,⟨r.hi/p+1,?_⟩⟩
  · change r.lo-r.lo%p=_
    omega
  · change r.hi-r.hi%p+(p-1)+1=_
    rw [Nat.mul_add,Nat.mul_one]
    omega

/-- Whole pages contain a range if they contain the pages around it. -/
theorem Range.Aligned.contains_round {r s : Range ℕ} (hp : 0<p) (h : r.Aligned p) :
    (r.lo≤(s.round p).lo ∧ (s.round p).hi ≤ r.hi) ↔ (r.lo ≤ s.lo ∧ s.hi ≤ r.hi) := by
  have hlo := le_page_start (a := s.lo) h.1
  have hhi := page_end_lt (a := s.hi) hp h.2
  rw [Nat.lt_succ_iff,Nat.lt_succ_iff] at hhi
  exact and_congr hlo hhi

/-- Whole pages meet a range if they meet the pages around it. -/
theorem Range.Aligned.meets_round {r s : Range ℕ} (hp : 0<p) (h : r.Aligned p) :
    r.Meets (s.round p) ↔ r.Meets s := by
  have hlo := not_congr (page_end_lt (a := s.hi) hp h.1)
  have hhi := not_congr (le_page_start (a := s.lo) h.2)
  rw [not_lt,not_lt] at hlo
  rw [not_le,not_le,Nat.lt_succ_iff,Nat.lt_succ_iff] at hhi
  exact and_congr hlo hhi

end Pages

end SystemCDma.RangeList
