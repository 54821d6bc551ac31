import Mathlib

/-! Sequences of calls on a state. A call without a result stops the sequence. -/
namespace Calls

variable {σ γ : Type*}

/-- Every call is made in a state that satisfies the condition for it. -/
def Allowed (step : γ → σ → Option σ) (ok : σ → γ → Prop) : σ → List γ → Prop
  | _, [] => True
  | s, c :: cs => ok s c ∧ ∀ t, step c s = some t → Allowed step ok t cs

instance Allowed.decidable (step : γ → σ → Option σ) (ok : σ → γ → Prop)
    [∀ s c, Decidable (ok s c)] : ∀ s cs, Decidable (Allowed step ok s cs)
  | _, [] => .isTrue trivial
  | s, c :: cs =>
    match h : step c s with
    | none => decidable_of_iff (ok s c) (by simp [Allowed, h])
    | some t =>
      have := Allowed.decidable step ok t cs
      decidable_of_iff (ok s c ∧ Allowed step ok t cs) (by simp [Allowed, h])

/-- The state after the calls. -/
def result (step : γ → σ → Option σ) : σ → List γ → Option σ
  | s, [] => some s
  | s, c :: cs => (step c s).bind fun t => result step t cs

/-- Every call has a result, and the property holds before and after each of them. -/
def Always (step : γ → σ → Option σ) (P : σ → Prop) : σ → List γ → Prop
  | s, [] => P s
  | s, c :: cs => P s ∧ ∃ t, step c s = some t ∧ Always step P t cs

/-- The property holds in every state that the calls reach. -/
def Reached (step : γ → σ → Option σ) (P : σ → Prop) : σ → List γ → Prop
  | s, [] => P s
  | s, c :: cs => P s ∧ ∀ t, step c s = some t → Reached step P t cs

/-- The calls lead from the first state to the second, each made in a state that satisfies the
condition for it. -/
inductive Run (step : γ → σ → Option σ) (ok : σ → γ → Prop) : σ → List γ → σ → Prop
  | nil (s : σ) : Run step ok s [] s
  | cons {s t u : σ} {c : γ} {cs : List γ} (hc : ok s c) (hs : step c s = some t)
      (h : Run step ok t cs u) : Run step ok s (c :: cs) u

variable {step : γ → σ → Option σ} {ok ok' good : σ → γ → Prop} {P Q : σ → Prop} {s t u : σ}
  {c : γ} {cs ds : List γ}

/-- Where the condition `good` decides whether a call keeps the property, it decides whether a
sequence of calls does. -/
theorem always_iff_allowed
    (hstep : ∀ s c, P s → ok s c → ((∃ t, step c s = some t ∧ P t) ↔ good s c))
    (hs : P s) (hok : Allowed step ok s cs) : Always step P s cs ↔ Allowed step good s cs := by
  induction cs generalizing s with
  | nil => exact ⟨fun _ => trivial, fun _ => hs⟩
  | cons c cs ih =>
    obtain ⟨hc, hrest⟩ := hok
    constructor
    · rintro ⟨-, t, ht, hall⟩
      have htP : P t := by
        cases cs with
        | nil => exact hall
        | cons d ds => exact hall.1
      refine ⟨(hstep s c hs hc).mp ⟨t, ht, htP⟩, fun u hu => ?_⟩
      obtain rfl := Option.some.inj (ht.symm.trans hu)
      exact (ih htP (hrest t ht)).mp hall
    · rintro ⟨hgood, hall⟩
      obtain ⟨t, ht, htP⟩ := (hstep s c hs hc).mpr hgood
      exact ⟨hs, t, ht, (ih htP (hrest t ht)).mpr (hall t ht)⟩

/-- Calls that always have a result and keep the property. -/
theorem always_of_allowed (hstep : ∀ s c, P s → ok s c → ∃ t, step c s = some t ∧ P t)
    (hs : P s) (hok : Allowed step ok s cs) : Always step P s cs := by
  induction cs generalizing s with
  | nil => exact hs
  | cons c cs ih =>
    obtain ⟨t, ht, htP⟩ := hstep s c hs hok.1
    exact ⟨hs, t, ht, ih htP (hok.2 t ht)⟩

theorem Always.mono (h : Always step P s cs) (hPQ : ∀ s, P s → Q s) : Always step Q s cs := by
  induction cs generalizing s with
  | nil => exact hPQ s h
  | cons c cs ih =>
    obtain ⟨hs, t, ht, h⟩ := h
    exact ⟨hPQ s hs, t, ht, ih h⟩

theorem Reached.head (h : Reached step P s cs) : P s := by
  cases cs with
  | nil => exact h
  | cons c cs => exact h.1

/-- Where the condition `good` decides whether a call that returns keeps the property, it decides
whether the property holds in every state that is reached. -/
theorem reached_iff_allowed
    (hstep : ∀ s c t, P s → step c s = some t → (P t ↔ good s c)) (hs : P s) :
    Reached step P s cs ↔ Allowed step (fun s c => (step c s).isSome → good s c) s cs := by
  induction cs generalizing s with
  | nil => exact ⟨fun _ => trivial, fun _ => hs⟩
  | cons c cs ih =>
    constructor
    · rintro ⟨-, hall⟩
      refine ⟨fun hsome => ?_, fun t ht => ?_⟩
      · obtain ⟨t, ht⟩ := Option.isSome_iff_exists.mp hsome
        exact (hstep s c t hs ht).mp (hall t ht).head
      · exact (ih (hall t ht).head).mp (hall t ht)
    · rintro ⟨hgood, hall⟩
      refine ⟨hs, fun t ht => ?_⟩
      have htP := (hstep s c t hs ht).mpr (hgood (by rw [ht]; rfl))
      exact (ih htP).mpr (hall t ht)

theorem Allowed.and (h : Allowed step ok s cs) (h' : Allowed step ok' s cs) :
    Allowed step (fun s c => ok s c ∧ ok' s c) s cs := by
  induction cs generalizing s with
  | nil => trivial
  | cons c cs ih =>
    exact ⟨⟨h.1, h'.1⟩, fun t ht => ih (h.2 t ht) (h'.2 t ht)⟩

theorem allowed_of_result
    (h : ∀ ds c es, cs = ds ++ c :: es → ∀ t, result step s ds = some t → ok t c) :
    Allowed step ok s cs := by
  induction cs generalizing s with
  | nil => trivial
  | cons c cs ih =>
    refine ⟨h [] c cs rfl s rfl, fun t ht => ih fun ds d es hcs u hu => ?_⟩
    refine h (c :: ds) d es (by rw [hcs, List.cons_append]) u ?_
    rw [result, ht, Option.bind_some, hu]

theorem allowed_append (hok : Allowed step ok s (cs ++ ds)) :
    Allowed step ok s cs ∧ ∀ t, result step s cs = some t → Allowed step ok t ds := by
  induction cs generalizing s with
  | nil =>
    refine ⟨trivial, fun t ht => ?_⟩
    obtain rfl := Option.some.inj ht
    exact hok
  | cons c cs ih =>
    refine ⟨⟨hok.1, fun t ht => (ih (hok.2 t ht)).1⟩, fun t ht => ?_⟩
    obtain ⟨u, hu, ht⟩ := Option.bind_eq_some_iff.mp ht
    exact (ih (hok.2 u hu)).2 t ht

theorem Always.result (h : Always step P s cs) : ∃ t, result step s cs = some t ∧ P t := by
  induction cs generalizing s with
  | nil => exact ⟨s, rfl, h⟩
  | cons c cs ih =>
    obtain ⟨-, t, ht, h⟩ := h
    obtain ⟨u, hu, hP⟩ := ih h
    exact ⟨u, by rw [Calls.result, ht, Option.bind_some, hu], hP⟩

namespace Run

/-- What every allowed call keeps holds at the end of a run. -/
theorem invariant (h : Run step ok s cs t)
    (hstep : ∀ s c t, P s → ok s c → step c s = some t → P t) (hs : P s) : P t := by
  induction h with
  | nil => exact hs
  | cons hc hs' _ ih => exact ih (hstep _ _ _ hs hc hs')

/-- Calls that give a result are a run. -/
theorem of_result (hok : Allowed step ok s cs) (ht : Calls.result step s cs = some t) :
    Run step ok s cs t := by
  induction cs generalizing s with
  | nil =>
    obtain rfl := Option.some.inj ht
    exact nil s
  | cons c cs ih =>
    obtain ⟨u, hu, ht⟩ := Option.bind_eq_some_iff.mp ht
    exact cons hok.1 hu (ih (hok.2 u hu) ht)

theorem append (h : Run step ok s cs t) (h' : Run step ok t ds u) :
    Run step ok s (cs ++ ds) u := by
  induction h with
  | nil => exact h'
  | cons hc hs _ ih => exact cons hc hs (ih h')

end Run
end Calls
