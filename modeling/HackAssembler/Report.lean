/-
  HackAssembler.Report

  Results that come with a log. A step of the assembler tells what it did and then succeeds or
  fails; a failure ends the work but keeps what was logged before it.

  `Report.fold` goes through a list with such steps in constant stack. Its equations `fold_nil` and
  `fold_cons` say that it does one step after the other.
-/
import HackAssembler.Event

namespace HackAssembler

/-- A result, or the error that prevented it, with everything logged on the way. -/
structure Report (α : Type) where
  log : List Event
  result : Except Error α

namespace Report

variable {α β σ : Type}

/-! ## Building reports -/

@[ext] theorem ext {a b : Report α} (hlog : a.log = b.log) (hresult : a.result = b.result) :
    a = b := by
  cases a
  cases b
  simp_all

/-- Fails without a word. -/
def fail (error : Error) : Report α :=
  ⟨[], .error error⟩

/-- Logs one event. -/
def tell (event : Event) : Report Unit :=
  ⟨[event], .ok ()⟩

/-- A result that needs no log. -/
def ofExcept (result : Except Error α) : Report α :=
  ⟨[], result⟩

/-- Puts events in front of the log. -/
def after (log : List Event) (report : Report α) : Report α :=
  { report with log := log ++ report.log }

instance : Monad Report where
  pure a := ⟨[], .ok a⟩
  bind report next :=
    match report.result with
    | .error error => ⟨report.log, .error error⟩
    | .ok a => (next a).after report.log

/-! ## Steps in a row -/

/-- Goes through a list from the left, one step an element. The first failure ends it. -/
def fold (step : σ → α → Report σ) (state : σ) (items : List α) : Report σ :=
  go #[] state items
where
  /-- Goes through what is left; `log` is what was logged so far. -/
  go (log : Array Event) (state : σ) : List α → Report σ
    | [] => ⟨log.toList, .ok state⟩
    | item :: items =>
      match step state item with
      | ⟨told, .error error⟩ => ⟨(log.appendList told).toList, .error error⟩
      | ⟨told, .ok state⟩ => go (log.appendList told) state items

/-! ## Lemmas -/

@[simp] theorem pure_eq (a : α) : (pure a : Report α) = ⟨[], .ok a⟩ := rfl

@[simp] theorem bind_ok (log : List Event) (a : α) (next : α → Report β) :
    ((⟨log, .ok a⟩ : Report α) >>= next) = (next a).after log := rfl

@[simp] theorem bind_error (log : List Event) (error : Error) (next : α → Report β) :
    ((⟨log, .error error⟩ : Report α) >>= next) = ⟨log, .error error⟩ := rfl

@[simp] theorem log_after (log : List Event) (report : Report α) :
    (report.after log).log = log ++ report.log := rfl

@[simp] theorem result_after (log : List Event) (report : Report α) :
    (report.after log).result = report.result := rfl

@[simp] theorem after_mk (log more : List Event) (result : Except Error α) :
    (⟨more, result⟩ : Report α).after log = ⟨log ++ more, result⟩ := rfl

theorem after_append (log more : List Event) (report : Report α) :
    report.after (log ++ more) = (report.after more).after log := by
  simp [after]

/-- Events put in front of a report stay in front of all that follows. -/
theorem after_bind (log : List Event) (report : Report α) (next : α → Report β) :
    report.after log >>= next = (report >>= next).after log := by
  obtain ⟨told, result⟩ := report
  cases result with
  | error error => simp
  | ok a => simp [after_append]

instance : LawfulMonad Report :=
  LawfulMonad.mk' Report
    (by
      rintro α ⟨log, result⟩
      cases result <;> simp [Functor.map, after])
    (by
      intro α β a next
      simp [pure, bind, after])
    (by
      rintro α β γ ⟨log, result⟩ next last
      cases result with
      | error error => simp
      | ok a => simp [after_bind])

/-- What was logged before stays in front and changes nothing else. -/
theorem fold.go_append (step : σ → α → Report σ) (earlier log : Array Event) (state : σ)
    (items : List α) :
    fold.go step (earlier ++ log) state items =
      (fold.go step log state items).after earlier.toList := by
  induction items generalizing log state with
  | nil => simp [fold.go, after]
  | cons item items ih =>
    have assoc (told : List Event) :
        (earlier ++ log).appendList told = earlier ++ log.appendList told := by
      apply Array.ext'
      simp
    rw [fold.go, fold.go]
    split
    · simp [after]
    · rw [assoc, ih]

theorem fold.go_eq (step : σ → α → Report σ) (log : Array Event) (state : σ) (items : List α) :
    fold.go step log state items = (fold step state items).after log.toList := by
  have front := fold.go_append step log #[] state items
  rwa [Array.append_empty] at front

@[simp] theorem fold_nil (step : σ → α → Report σ) (state : σ) :
    fold step state [] = pure state := rfl

@[simp] theorem fold_cons (step : σ → α → Report σ) (state : σ) (item : α) (items : List α) :
    fold step state (item :: items) = step state item >>= fun next => fold step next items := by
  rw [fold, fold.go]
  split <;> rename_i h <;> rw [h]
  · simp
  · rw [fold.go_eq]
    simp

end Report

end HackAssembler
