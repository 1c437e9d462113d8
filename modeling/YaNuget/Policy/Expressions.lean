import YaNuget.Data.Text
import YaNuget.Data.Words
import YaNuget.Store.Policy

/-!
# License expressions

SPDX expressions as trees, and the texts they are written as: operators in any
case, blanks wherever they may stand.
-/
namespace YaNuget.Policy

open Words

/-- The operators between the licenses of an expression. -/
def isOperator (w : Text) : Bool :=
  Text.lower w = "and".toList || Text.lower w = "or".toList || Text.lower w = "with".toList

/-- A license as an expression names it, `id` or `id WITH exception`, in its own spelling. -/
structure Leaf where
  word : Text
  exception : Option Text
  plain : isOperator word = false
  plain_exception : ∀ x ∈ exception, isOperator x = false
  deriving DecidableEq

theorem plain_none : ∀ x ∈ (none : Option Text), isOperator x = false := by simp

inductive Expression where
  | leaf (license : Leaf)
  | paren (e : Expression)
  | and (a b : Expression)
  | or (a b : Expression)

namespace Expression

def leaves : Expression → List Leaf
  | leaf license => [license]
  | paren e => e.leaves
  | and a b => a.leaves ++ b.leaves
  | or a b => a.leaves ++ b.leaves

/-- What the expression says, given what is true of its leaves. -/
def Holds (P : Leaf → Prop) : Expression → Prop
  | leaf license => P license
  | paren e => e.Holds P
  | and a b => a.Holds P ∧ b.Holds P
  | or a b => a.Holds P ∨ b.Holds P

/-- Neither parentheses nor `OR`. -/
def isConjunction : Expression → Bool
  | leaf _ => true
  | paren _ => false
  | and a b => a.isConjunction && b.isConjunction
  | or _ _ => false

/-- An expression without parentheses, read with `AND` before `OR`. -/
def isFlat : Expression → Bool
  | leaf _ => true
  | paren _ => false
  | and a b => a.isConjunction && b.isConjunction
  | or a b => a.isFlat && b.isFlat

/-- The tokens of an expression, with its operators in any case. -/
inductive Spelled : Expression → List (Token Char) → Prop
  | leaf {license : Leaf} : license.exception = none → Spelled (leaf license) [.word license.word]
  | exception {license : Leaf} {op x : Text} : license.exception = some x →
      Text.lower op = "with".toList →
      Spelled (leaf license) [.word license.word, .word op, .word x]
  | paren {e : Expression} {ts : List (Token Char)} : Spelled e ts →
      Spelled (paren e) (.mark '(' :: (ts ++ [.mark ')']))
  | and {a b : Expression} {ts ts' : List (Token Char)} {op : Text} :
      Text.lower op = "and".toList → Spelled a ts → Spelled b ts' →
      Spelled (and a b) (ts ++ .word op :: ts')
  | or {a b : Expression} {ts ts' : List (Token Char)} {op : Text} :
      Text.lower op = "or".toList → Spelled a ts → Spelled b ts' →
      Spelled (or a b) (ts ++ .word op :: ts')

/-- The text says the expression. -/
def Says (license : String) (e : Expression) : Prop :=
  ∃ ts, Spelled e ts ∧
    Laid isWhitespace (fun c => c = '(' || c = ')') ts license.toList

theorem mem_wordsOf {e : Expression} {ts : List (Token Char)} (h : Spelled e ts) :
    ∀ license ∈ e.leaves, license.word ∈ wordsOf ts := by
  induction h with
  | leaf | exception =>
    intro license hl
    rw [List.mem_singleton.mp hl]
    exact List.mem_cons_self
  | paren _ ih =>
    intro license hl
    simp only [wordsOf, wordsOf_append, List.append_nil]
    exact ih license hl
  | and _ _ _ ih ih' | or _ _ _ ih ih' =>
    intro license hl
    rw [wordsOf_append]
    rcases List.mem_append.mp hl with hl | hl
    · exact List.mem_append_left _ (ih license hl)
    · exact List.mem_append_right _ (List.mem_cons_of_mem _ (ih' license hl))

theorem leaves_ne_nil (e : Expression) : e.leaves ≠ [] := by
  induction e with
  | leaf => exact List.cons_ne_nil _ _
  | paren _ ih => exact ih
  | and _ _ ih _ | or _ _ ih _ => exact List.append_ne_nil_of_left_ne_nil ih _

theorem exists_word {e : Expression} {ts : List (Token Char)} (h : Spelled e ts) :
    ∃ license ∈ e.leaves, license.word ∈ wordsOf ts := by
  obtain ⟨license, hl⟩ := List.exists_mem_of_ne_nil _ e.leaves_ne_nil
  exact ⟨license, hl, mem_wordsOf h license hl⟩

end Expression

section Strings

@[simp] theorem toAsciiLowercase_ofList (t : Text) :
    toAsciiLowercase (String.ofList t) = String.ofList (Text.lower t) := by
  simp [toAsciiLowercase, Text.lower]

theorem eqIgnoreAsciiCase_iff {a b : String} :
    eqIgnoreAsciiCase a b = true ↔ Text.lower a.toList = Text.lower b.toList := by
  simp [eqIgnoreAsciiCase, toAsciiLowercase, Text.lower, String.ofList_inj]

theorem tokens_eq (sep : Char → Bool) (s : String) :
    tokens sep s = (pieces sep s.toList).map String.ofList := rfl

end Strings

end YaNuget.Policy
