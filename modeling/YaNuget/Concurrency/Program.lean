import Mathlib.Data.List.Basic
import Mathlib.Logic.Function.Basic

/-!
# Programs over atomic calls

An asynchronous function is the tree of the calls it makes: each call is one
atomic step on the shared state, and the rest of the function is chosen by the
answer. Loops over finite lists unfold into finite trees, so every program
here terminates once each of its calls is answered.
-/
namespace YaNuget.Concurrency

/-- A program over the calls `C`, where a call `c` is answered in `R c`. -/
inductive Program (C : Type) (R : C → Type) (α : Type) where
  | done (value : α)
  | call (c : C) (next : R c → Program C R α)

namespace Program

variable {C : Type} {R : C → Type} {α β γ : Type}

def bind : Program C R α → (α → Program C R β) → Program C R β
  | .done a, f => f a
  | .call c next, f => .call c fun r => (next r).bind f

instance : Monad (Program C R) where
  pure := .done
  bind := bind

/-- The call the program makes next, unless it is done. -/
def nextCall : Program C R α → Option C
  | .done _ => none
  | .call c _ => some c

theorem nextCall_eq_none {p : Program C R α} : p.nextCall = none ↔ ∃ a, p = .done a := by
  cases p with
  | done a => simp [nextCall]
  | call c next => simp [nextCall]

theorem nextCall_eq_some {p : Program C R α} {c : C} :
    p.nextCall = some c ↔ ∃ next, p = .call c next := by
  cases p with
  | done a => simp [nextCall]
  | call c' next =>
    constructor
    · intro h
      obtain rfl := Option.some.inj h
      exact ⟨next, rfl⟩
    · rintro ⟨next, h⟩
      cases h
      rfl

/-- The program that makes one call and returns its answer. -/
def perform (c : C) : Program C R (R c) := .call c .done

@[simp] theorem pure_eq (a : α) : (pure a : Program C R α) = .done a := rfl

@[simp] theorem done_bind (a : α) (f : α → Program C R β) : .done a >>= f = f a := rfl

@[simp] theorem call_bind (c : C) (next : R c → Program C R α) (f : α → Program C R β) :
    .call c next >>= f = .call c fun r => next r >>= f := rfl

@[simp] theorem perform_bind (c : C) (f : R c → Program C R β) :
    perform c >>= f = .call c f := rfl

theorem bind_done (p : Program C R α) : p >>= .done = p := by
  induction p with
  | done a => rfl
  | call c next ih => exact congrArg (Program.call c) (funext ih)

theorem bind_assoc (p : Program C R α) (f : α → Program C R β) (g : β → Program C R γ) :
    p >>= f >>= g = p >>= fun a => f a >>= g := by
  induction p with
  | done a => rfl
  | call c next ih => exact congrArg (Program.call c) (funext ih)

instance : LawfulMonad (Program C R) :=
  LawfulMonad.mk' (Program C R) bind_done (fun _ _ => rfl) bind_assoc

/-- Every call the program can make, whatever the answers, satisfies `φ`. -/
def Calls (φ : C → Prop) : Program C R α → Prop
  | .done _ => True
  | .call c next => φ c ∧ ∀ r, (next r).Calls φ

theorem Calls.bind {φ : C → Prop} {p : Program C R α} {f : α → Program C R β}
    (hp : p.Calls φ) (hf : ∀ a, (f a).Calls φ) : (p >>= f).Calls φ := by
  induction p with
  | done a => exact hf a
  | call c next ih => exact ⟨hp.1, fun r => ih r (hp.2 r)⟩

theorem Calls.mono {φ ψ : C → Prop} {p : Program C R α} (hp : p.Calls φ)
    (h : ∀ c, φ c → ψ c) : p.Calls ψ := by
  induction p with
  | done a => trivial
  | call c next ih => exact ⟨h c hp.1, fun r => ih r (hp.2 r)⟩

end Program

/-- A program that may stop early with an error, as `?` does. -/
abbrev Fallible (C : Type) (R : C → Type) (ε : Type) := ExceptT ε (Program C R)

namespace Fallible

variable {C : Type} {R : C → Type} {ε α β : Type}

def lift (p : Program C R α) : Fallible C R ε α := ExceptT.lift p

/-- The outcome of `x` as a value: what is matched on where no `?` follows. -/
def attempt (x : Fallible C R ε α) : Fallible C R ε (Except ε α) := ExceptT.lift x.run

/-- Run `x` and go on whatever came of it. -/
def ignore (x : Fallible C R ε α) : Fallible C R ε Unit := do
  let _ ← attempt x
  pure ()

section Calls

variable {φ : C → Prop} {x : Fallible C R ε α} {f : α → Fallible C R ε β}

theorem calls_bind (hx : x.run.Calls φ) (hf : ∀ a, (f a).run.Calls φ) :
    (x >>= f).run.Calls φ := by
  refine Program.Calls.bind hx fun result => ?_
  cases result with
  | ok a => exact hf a
  | error e => trivial

theorem calls_attempt (hx : x.run.Calls φ) : (attempt x : Fallible C R ε _).run.Calls φ :=
  Program.Calls.bind hx fun _ => trivial

end Calls

/-- A property of programs that sequencing keeps. -/
structure Closed (J : ∀ {α : Type}, Fallible C R ε α → Prop) : Prop where
  result {α : Type} (x : Except ε α) : J (ExceptT.mk (.done x) : Fallible C R ε α)
  bind {α β : Type} {x : Fallible C R ε α} {f : α → Fallible C R ε β} :
    J x → (∀ a, J (f a)) → J (x >>= f)
  attempt {α : Type} {x : Fallible C R ε α} : J x → J (attempt x)

namespace Closed

variable {J : ∀ {α : Type}, Fallible C R ε α → Prop} (hJ : Closed J)

include hJ

theorem ignore {x : Fallible C R ε α} (hx : J x) : J (Fallible.ignore x) :=
  hJ.bind (hJ.attempt hx) fun _ => hJ.result (.ok ())

theorem discard {x : Fallible C R ε α} (hx : J x) : J (do let _ ← x) :=
  hJ.bind hx fun _ => hJ.result (.ok ())

theorem forM {xs : List α} {g : α → Fallible C R ε PUnit} (h : ∀ a ∈ xs, J (g a)) :
    J (xs.forM g) := by
  induction xs with
  | nil => exact hJ.result (.ok ())
  | cons a xs ih =>
    exact hJ.bind (h a List.mem_cons_self) fun _ => ih fun b hb => h b (List.mem_cons_of_mem a hb)

theorem optionForM {x : Option α} {g : α → Fallible C R ε PUnit} (h : ∀ a, J (g a)) :
    J (x.forM g) := by
  cases x with
  | some a => exact h a
  | none => exact hJ.result (.ok ())

end Closed

theorem closed_calls (φ : C → Prop) :
    Closed (fun {α : Type} (x : Fallible C R ε α) => x.run.Calls φ) where
  result _ := trivial
  bind hx hf := calls_bind hx hf
  attempt hx := calls_attempt hx

end Fallible

end YaNuget.Concurrency
