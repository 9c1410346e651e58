/-
  HackAssembler.Proofs.Report

  Where a walk through a list ends. A step of the walk either goes on or fails, and whether it
  fails may depend on everything before it. `FirstFault` names the item at which the walk has to
  end, without walking; `Report.Tracks` is what has to be known of the steps, one at a time; and
  `Tracks.result_of_faultless` and `Tracks.result_of_firstFault` say what the whole walk comes to.

  Two walks side by side come to corresponding results if their steps do (`Corresponds.fold`).
-/
import HackAssembler.Report
import HackAssembler.Proofs.List

namespace HackAssembler

variable {α β σ : Type}

/-! ## Results in a row -/

theorem exists_eq_ok_of_isOk {ε : Type} {outcome : Except ε α} (h : outcome.isOk = true) :
    ∃ a, outcome = .ok a := by
  cases outcome with
  | error error => cases h
  | ok a => exact ⟨a, rfl⟩

theorem except_bind_eq_ok_iff {ε : Type} {first : Except ε α} {next : α → Except ε β} {b : β} :
    (first >>= next) = .ok b ↔ ∃ a, first = .ok a ∧ next a = .ok b := by
  cases first with
  | error error =>
    constructor
    · intro h
      cases h
    · rintro ⟨a, h, -⟩
      cases h
  | ok a =>
    constructor
    · intro h
      exact ⟨a, rfl, h⟩
    · rintro ⟨other, h, hnext⟩
      cases h
      exact hnext

/-! ## The first fault of a list -/

/-- No item of a list is at fault. A fault may depend on the items before the one at fault. -/
def Faultless (fault : List α → α → Error → Prop) (items : List α) : Prop :=
  ∀ before item after, items = before ++ item :: after → ∀ error, ¬ fault before item error

/-- An item of a list is at fault, and none before it is. -/
def FirstFault (fault : List α → α → Error → Prop) (items : List α) (item : α) (error : Error) :
    Prop :=
  ∃ before after, items = before ++ item :: after ∧ Faultless fault before ∧
    fault before item error

variable {fault : List α → α → Error → Prop}

theorem faultless_nil : Faultless fault [] := by
  intro before item after h
  simp at h

theorem Faultless.of_append {items more : List α} (h : Faultless fault (items ++ more)) :
    Faultless fault items := by
  intro before item after hitems
  exact h before item (after ++ more) (by rw [hitems]; simp)

theorem faultless_append_singleton {items : List α} {item : α} :
    Faultless fault (items ++ [item]) ↔
      Faultless fault items ∧ ∀ error, ¬ fault items item error := by
  constructor
  · intro h
    exact ⟨h.of_append, h items item [] rfl⟩
  · rintro ⟨hitems, hitem⟩ before other after h
    -- The split is either at the new item or somewhere before it.
    rcases List.eq_nil_or_concat after with rfl | ⟨initial, last, rfl⟩
    · obtain ⟨rfl, hsame⟩ := List.append_inj' h rfl
      obtain rfl : item = other := by simpa using hsame
      exact hitem
    · have hsplit : items ++ [item] = (before ++ other :: initial) ++ [last] := by
        rw [h]; simp
      exact hitems before other initial (List.append_inj' hsplit rfl).1

/-- A list with a fault has a first one. -/
theorem exists_firstFault {items : List α} (h : ¬ Faultless fault items) :
    ∃ item error, FirstFault fault items item error := by
  -- From the end of the list: what stands before a first fault does not change behind it.
  induction items using List.reverseRecOn with
  | nil => exact absurd faultless_nil h
  | append_singleton items item ih =>
    by_cases hitems : Faultless fault items
    · rw [faultless_append_singleton] at h
      have hitem : ∃ error, fault items item error := by
        by_contra hnone
        exact h ⟨hitems, fun error herror => hnone ⟨error, herror⟩⟩
      obtain ⟨error, herror⟩ := hitem
      exact ⟨item, error, items, [], rfl, hitems, herror⟩
    · obtain ⟨first, error, before, after, rfl, hbefore, herror⟩ := ih hitems
      exact ⟨first, error, before, after ++ [item], by simp, hbefore, herror⟩

/-- A first fault stays the first one if there is more behind it. -/
theorem FirstFault.append {items : List α} {item : α} {error : Error}
    (h : FirstFault fault items item error) (more : List α) :
    FirstFault fault (items ++ more) item error := by
  obtain ⟨before, after, rfl, hbefore, hitem⟩ := h
  exact ⟨before, after ++ more, by simp, hbefore, hitem⟩

theorem FirstFault.mem {items : List α} {item : α} {error : Error}
    (h : FirstFault fault items item error) : item ∈ items := by
  obtain ⟨before, after, rfl, -, -⟩ := h
  simp

/-- Items are without fault if each fault at their side comes from one of theirs. -/
theorem Faultless.of_forall₂ {R : α → β → Prop}
    {fault' : List β → β → Error → Prop} {items : List α} {others : List β}
    (hitems : List.Forall₂ R items others)
    (hback : ∀ {before before' item other error}, List.Forall₂ R before before' → R item other →
      fault' before' other error → ∃ error, fault before item error)
    (h : Faultless fault items) : Faultless fault' others := by
  intro before' other after' hothers error' hfault'
  obtain ⟨before, item, after, hsplit, hbefore, hitem, -⟩ :=
    exists_split_of_forall₂ (hothers ▸ hitems.flip)
  obtain ⟨error, hfault⟩ := hback hbefore.flip hitem hfault'
  exact h before item after hsplit error hfault

/-- A first fault is found again at its side, if a fault there comes from one here. -/
theorem FirstFault.of_forall₂ {R : α → β → Prop}
    {fault' : List β → β → Error → Prop} {items : List α} {others : List β}
    {onError : Error → Error} (hitems : List.Forall₂ R items others)
    (hfault : ∀ {before before' item other error}, List.Forall₂ R before before' → R item other →
      fault before item error → fault' before' other (onError error))
    (hback : ∀ {before before' item other error}, List.Forall₂ R before before' → R item other →
      fault' before' other error → ∃ error, fault before item error)
    {item : α} {error : Error} (h : FirstFault fault items item error) :
    ∃ other, FirstFault fault' others other (onError error) := by
  obtain ⟨before, after, rfl, hfaultless, hitem⟩ := h
  obtain ⟨before', other, after', hothers, hbefore, hother, -⟩ := exists_split_of_forall₂ hitems
  exact ⟨other, before', after', hothers, hfaultless.of_forall₂ hbefore hback,
    hfault hbefore hother hitem⟩

namespace Report

/-! ## Results of reports in a row -/

@[simp] theorem result_tell (event : Event) : (tell event).result = .ok () := rfl

theorem result_bind_of_ok {report : Report α} {a : α} (h : report.result = .ok a)
    (next : α → Report β) : (report >>= next).result = (next a).result := by
  obtain ⟨log, result⟩ := report
  obtain rfl : result = .ok a := h
  simp

theorem result_bind_of_error {report : Report α} {error : Error} (h : report.result = .error error)
    (next : α → Report β) : (report >>= next).result = .error error := by
  obtain ⟨log, result⟩ := report
  obtain rfl : result = .error error := h
  simp

theorem result_bind_eq_ok_iff {report : Report α} {next : α → Report β} {b : β} :
    (report >>= next).result = .ok b ↔ ∃ a, report.result = .ok a ∧ (next a).result = .ok b := by
  cases hresult : report.result with
  | ok a =>
    rw [result_bind_of_ok hresult]
    constructor
    · intro h
      exact ⟨a, rfl, h⟩
    · rintro ⟨other, hother, h⟩
      cases hother
      exact h
  | error error =>
    rw [result_bind_of_error hresult]
    constructor
    · intro h
      cases h
    · rintro ⟨a, ha, -⟩
      cases ha

/-! ## Events of reports in a row -/

theorem log_bind_of_ok {report : Report α} {a : α} (h : report.result = .ok a)
    (next : α → Report β) : (report >>= next).log = report.log ++ (next a).log := by
  obtain ⟨log, result⟩ := report
  obtain rfl : result = .ok a := h
  simp

theorem log_bind_of_error {report : Report α} {error : Error} (h : report.result = .error error)
    (next : α → Report β) : (report >>= next).log = report.log := by
  obtain ⟨log, result⟩ := report
  obtain rfl : result = .error error := h
  simp

/-- What holds of the events of both parts holds of all events. -/
theorem forall_mem_log_bind {P : Event → Prop} {report : Report α} {next : α → Report β}
    (h : ∀ event ∈ report.log, P event)
    (hnext : ∀ a, report.result = .ok a → ∀ event ∈ (next a).log, P event) :
    ∀ event ∈ (report >>= next).log, P event := by
  cases hresult : report.result with
  | ok a =>
    rw [log_bind_of_ok hresult, List.forall_mem_append]
    exact ⟨h, hnext a hresult⟩
  | error error => rwa [log_bind_of_error hresult]

/-! ## Walks -/

/-- What holds of the events of every step holds of all events of a walk. -/
theorem forall_mem_log_fold {P : Event → Prop} {step : σ → α → Report σ} {items : List α}
    (h : ∀ item ∈ items, ∀ state, ∀ event ∈ (step state item).log, P event) (state : σ) :
    ∀ event ∈ (fold step state items).log, P event := by
  induction items generalizing state with
  | nil => simp
  | cons item items ih =>
    rw [List.forall_mem_cons] at h
    rw [fold_cons]
    exact forall_mem_log_bind (h.1 state) fun next _ => ih h.2 next

theorem fold_append (step : σ → α → Report σ) (state : σ) (items more : List α) :
    fold step state (items ++ more) =
      fold step state items >>= fun next => fold step next more := by
  induction items generalizing state with
  | nil => rw [List.nil_append, fold_nil, pure_bind]
  | cons item items ih =>
    rw [List.cons_append, fold_cons, fold_cons, bind_assoc]
    simp only [ih]

/-- The steps of a walk through `items` keep an invariant, which speaks of the items already
    behind, and fail exactly at the items at fault. -/
structure Tracks (step : σ → α → Report σ) (fault : List α → α → Error → Prop)
    (inv : List α → σ → Prop) (items : List α) : Prop where
  /-- A step at an item without fault goes on. -/
  goes : ∀ {before item after state}, items = before ++ item :: after → inv before state →
    (∀ error, ¬ fault before item error) →
      ∃ next, (step state item).result = .ok next ∧ inv (before ++ [item]) next
  /-- A step at an item at fault ends with that fault. -/
  ends : ∀ {before item after state error}, items = before ++ item :: after → inv before state →
    fault before item error → (step state item).result = .error error

namespace Tracks

variable {step : σ → α → Report σ} {inv : List α → σ → Prop} {items : List α} {start : σ}

theorem of_append {more : List α} (h : Tracks step fault inv (items ++ more)) :
    Tracks step fault inv items where
  goes {before item after _} hitems := by
    have hsplit : items ++ more = before ++ item :: (after ++ more) := by rw [hitems]; simp
    exact h.goes hsplit
  ends {before item after _ _} hitems := by
    have hsplit : items ++ more = before ++ item :: (after ++ more) := by rw [hitems]; simp
    exact h.ends hsplit

/-- A walk through items without fault comes to its end, with the invariant. -/
theorem result_of_faultless (h : Tracks step fault inv items) (hstart : inv [] start)
    (hfaultless : Faultless fault items) :
    ∃ final, (fold step start items).result = .ok final ∧ inv items final := by
  -- The invariant speaks of what is behind, so the walk is taken apart at its last step.
  induction items using List.reverseRecOn with
  | nil => exact ⟨start, by simp, hstart⟩
  | append_singleton items item ih =>
    obtain ⟨hitems, hitem⟩ := faultless_append_singleton.mp hfaultless
    obtain ⟨state, hstate, hinv⟩ := ih h.of_append hitems
    obtain ⟨final, hfinal, hinv'⟩ := h.goes rfl hinv hitem
    refine ⟨final, ?_, hinv'⟩
    rw [fold_append, result_bind_of_ok hstate, fold_cons, result_bind_of_ok hfinal, fold_nil]
    rfl

/-- A walk ends with the first fault. -/
theorem result_of_firstFault (h : Tracks step fault inv items) (hstart : inv [] start)
    {item : α} {error : Error} (hfirst : FirstFault fault items item error) :
    (fold step start items).result = .error error := by
  obtain ⟨before, after, rfl, hbefore, hfault⟩ := hfirst
  obtain ⟨state, hstate, hinv⟩ := h.of_append.result_of_faultless hstart hbefore
  rw [fold_append, result_bind_of_ok hstate, fold_cons,
    result_bind_of_error (h.ends rfl hinv hfault)]

/-- A walk that comes to its end has no item at fault. -/
theorem faultless_of_ok (h : Tracks step fault inv items) (hstart : inv [] start) {final : σ}
    (hok : (fold step start items).result = .ok final) : Faultless fault items := by
  by_contra hfaulty
  obtain ⟨item, error, hfirst⟩ := exists_firstFault hfaulty
  rw [h.result_of_firstFault hstart hfirst] at hok
  cases hok

/-- A walk that fails does so at its first fault. -/
theorem exists_firstFault_of_error (h : Tracks step fault inv items) (hstart : inv [] start)
    {error : Error} (herror : (fold step start items).result = .error error) :
    ∃ item, FirstFault fault items item error := by
  by_cases hfaultless : Faultless fault items
  · obtain ⟨final, hfinal, -⟩ := h.result_of_faultless hstart hfaultless
    rw [hfinal] at herror
    cases herror
  · obtain ⟨item, other, hfirst⟩ := exists_firstFault hfaultless
    rw [h.result_of_firstFault hstart hfirst] at herror
    cases herror
    exact ⟨item, hfirst⟩

end Tracks

/-! ## Reports side by side -/

/-- The result of the second report is that of the first with its value or its error changed. -/
def Corresponds (onValue : α → β) (onError : Error → Error) (report : Report α)
    (other : Report β) : Prop :=
  other.result = (report.result.map onValue).mapError onError

namespace Corresponds

variable {onValue : α → β} {onError : Error → Error} {report : Report α} {other : Report β}

theorem of_ok {a : α} (h : report.result = .ok a) (h' : other.result = .ok (onValue a)) :
    Corresponds onValue onError report other := by
  rw [Corresponds, h, h']
  rfl

theorem of_error {error : Error} (h : report.result = .error error)
    (h' : other.result = .error (onError error)) : Corresponds onValue onError report other := by
  rw [Corresponds, h, h']
  rfl

theorem ofExcept (result : Except Error α) :
    Corresponds id onError (.ofExcept result) (.ofExcept (result.mapError onError)) := by
  rw [Corresponds, Except.map_id]
  rfl

theorem result_of_ok (h : Corresponds onValue onError report other) {a : α}
    (hok : report.result = .ok a) : other.result = .ok (onValue a) := by
  rw [h, hok]
  rfl

theorem result_of_error (h : Corresponds onValue onError report other) {error : Error}
    (herror : report.result = .error error) : other.result = .error (onError error) := by
  rw [h, herror]
  rfl

/-- What follows reports that correspond has to correspond only if they succeed. -/
theorem bind {γ δ : Type} {next : α → Report γ} {next' : β → Report δ} {onNext : γ → δ}
    (h : Corresponds onValue onError report other)
    (hnext : ∀ a, Corresponds onNext onError (next a) (next' (onValue a))) :
    Corresponds onNext onError (report >>= next) (other >>= next') := by
  cases hresult : report.result with
  | error error =>
    exact of_error (result_bind_of_error hresult next)
      (result_bind_of_error (h.result_of_error hresult) next')
  | ok a =>
    rw [Corresponds, result_bind_of_ok hresult, result_bind_of_ok (h.result_of_ok hresult)]
    exact hnext a

/-- Walks correspond if each step corresponds to its neighbour. -/
theorem fold {τ : Type} {step : σ → α → Report σ} {step' : τ → β → Report τ} {onState : σ → τ}
    {R : α → β → Prop} {items : List α} {items' : List β} (h : List.Forall₂ R items items')
    (hstep : ∀ state item item', R item item' →
      Corresponds onState onError (step state item) (step' (onState state) item'))
    (state : σ) :
    Corresponds onState onError (Report.fold step state items)
      (Report.fold step' (onState state) items') := by
  induction h generalizing state with
  | nil => exact of_ok rfl rfl
  | cons hitem _ ih =>
    rw [fold_cons, fold_cons]
    exact (hstep state _ _ hitem).bind ih

end Corresponds

end Report

end HackAssembler
