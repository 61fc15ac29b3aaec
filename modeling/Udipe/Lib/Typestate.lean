import Mathlib.Data.List.Basic
import Mathlib.Logic.Basic

/-!
# Checking what a program does with its variables

Code is a tree of instructions and questions whose leaves go to a label, with a block of code for
each label. It runs over a memory, and an environment decides what the memory does not: the answers
to questions, and what an instruction gets from outside.

An analysis follows the code with an abstract state in place of the memory. `check` computes whether
it gets to the end of a piece of code from an abstract state, or to an instruction at which it expects
a failure. If it does so for every block from each state that is expected there, then a run of the
code fails where the analysis expects it to and nowhere else, and each memory of a run matches an
abstract state from which the rest of the code is accepted.
-/

namespace Typestate

universe u

/-- Code over the instructions `I`, the questions `Q` and the labels `L`. -/
inductive Code (I Q L : Type u) : Type u
  /-- The end of the code. -/
  | stop
  /-- The last instruction of the program. -/
  | last (i : I)
  | instr (i : I) (next : Code I Q L)
  | ask (q : Q) (yes no : Code I Q L)
  /-- `body`, once or not at all. -/
  | optionally (body next : Code I Q L)
  /-- `body`, any number of times. -/
  | iterate (body next : Code I Q L)
  | goto (l : L)
deriving DecidableEq

namespace Code

variable {I Q L : Type u}

/-- The code that goes on with `next` at its end. -/
def andThen : Code I Q L → Code I Q L → Code I Q L
  | stop, next => next
  | last i, _ => last i
  | instr i rest, next => instr i (rest.andThen next)
  | ask q yes no, next => ask q (yes.andThen next) (no.andThen next)
  | optionally body rest, next => optionally body (rest.andThen next)
  | iterate body rest, next => iterate body (rest.andThen next)
  | goto l, _ => goto l

/-- A list of instructions before `next`. -/
def block (is : List I) (next : Code I Q L) : Code I Q L := is.foldr instr next

end Code

variable {I Q L V μ ε σ : Type u}

/-- A program: its blocks, what an instruction does, and the questions that the memory answers. An
instruction may be impossible with what the environment offers, and it may fail. -/
structure Program (I Q L V μ ε : Type u) where
  block : L → Code I Q L
  exec : I → ε → μ → Option (Except V μ)
  answer : Q → μ → Option Bool

/-- What is still to be run, and the memory. -/
structure Config (I Q L μ : Type u) where
  code : Code I Q L
  memory : μ

/-- What the environment decides in a step. -/
structure Choice (ε : Type u) where
  answer : Bool
  offer : ε

/-- The outcome of a step, none if it is not possible. -/
def Program.step (P : Program I Q L V μ ε) (s : Config I Q L μ) (choice : Choice ε) :
    Option (Except V (Config I Q L μ)) :=
  match s.code with
  | .stop => none
  | .last i => (P.exec i choice.offer s.memory).map (·.map fun m => ⟨.stop, m⟩)
  | .instr i next => (P.exec i choice.offer s.memory).map (·.map fun m => ⟨next, m⟩)
  | .ask q yes no =>
      if P.answer q s.memory = some (!choice.answer) then none
      else some (.ok ⟨if choice.answer then yes else no, s.memory⟩)
  | .optionally body next =>
      some (.ok ⟨if choice.answer then body.andThen next else next, s.memory⟩)
  | .iterate body next =>
      some (.ok ⟨if choice.answer then body.andThen (.iterate body next) else next, s.memory⟩)
  | .goto l => some (.ok ⟨P.block l, s.memory⟩)

/-- An analysis over abstract states: what an instruction does to one, at which ones it fails, which
answers are possible in one, which are expected at a label and which before the last instruction. -/
structure Analysis (I Q L σ : Type u) where
  transfer : I → σ → Option σ
  fails : I → σ → Bool
  admits : Q → Bool → σ → Bool
  expects : L → σ → Bool
  final : I → σ → Bool

variable [DecidableEq σ]

/-- The analysis accepts the code from an abstract state, and `post` the states at its end. An
optional part must leave the state as it is. -/
def Analysis.check (A : Analysis I Q L σ) : Code I Q L → σ → (σ → Bool) → Bool
  | .stop, t, post => post t
  | .last i, t, _ => A.final i t
  | .instr i next, t, post =>
      A.fails i t ||
        match A.transfer i t with
        | some t' => A.check next t' post
        | none => false
  | .ask q yes no, t, post =>
      (!A.admits q true t || A.check yes t post) && (!A.admits q false t || A.check no t post)
  | .optionally body next, t, post => A.check body t (fun t' => decide (t' = t))
      && A.check next t post
  | .iterate body next, t, post => A.check body t (fun t' => decide (t' = t)) && A.check next t post
  | .goto l, t, _ => A.expects l t

namespace Analysis

variable {A : Analysis I Q L σ} {P : Program I Q L V μ ε}

theorem check_instr {i : I} {next : Code I Q L} {t : σ} {post : σ → Bool} :
    A.check (.instr i next) t post = true ↔
      A.fails i t = true ∨ ∃ t', A.transfer i t = some t' ∧ A.check next t' post = true := by
  rw [check, Bool.or_eq_true]
  cases A.transfer i t <;> simp

theorem check_ask {q : Q} {yes no : Code I Q L} {t : σ} {post : σ → Bool} :
    A.check (.ask q yes no) t post = true ↔
      (A.admits q true t = true → A.check yes t post = true) ∧
        (A.admits q false t = true → A.check no t post = true) := by
  rw [check]
  cases A.admits q true t <;> cases A.admits q false t <;> simp

/-- The code that follows takes up each state that the first part ends in. -/
theorem check_andThen {next : Code I Q L} {post post' : σ → Bool} :
    ∀ {code : Code I Q L} {t : σ}, A.check code t post = true →
      (∀ t', post t' = true → A.check next t' post' = true) →
        A.check (code.andThen next) t post' = true
  | .stop, t, h, hnext => hnext t h
  | .last _, _, h, _ => h
  | .goto _, _, h, _ => h
  | .instr i rest, t, h, hnext => by
      obtain hfails | ⟨t', htransfer, hrest⟩ := check_instr.mp h
      · exact check_instr.mpr (.inl hfails)
      · exact check_instr.mpr (.inr ⟨t', htransfer, check_andThen hrest hnext⟩)
  | .ask q yes no, t, h, hnext => by
      obtain ⟨hyes, hno⟩ := check_ask.mp h
      exact check_ask.mpr ⟨fun hadmits => check_andThen (hyes hadmits) hnext,
        fun hadmits => check_andThen (hno hadmits) hnext⟩
  | .optionally body rest, t, h, hnext => by
      rw [check, Bool.and_eq_true] at h
      rw [Code.andThen, check, Bool.and_eq_true]
      exact ⟨h.1, check_andThen h.2 hnext⟩
  | .iterate body rest, t, h, hnext => by
      rw [check, Bool.and_eq_true] at h
      rw [Code.andThen, check, Bool.and_eq_true]
      exact ⟨h.1, check_andThen h.2 hnext⟩

/-- The analysis is right about the program as far as `cond` holds of its steps, when abstract
states stand for the memories that `Match` relates them to. -/
structure Sound (A : Analysis I Q L σ) (P : Program I Q L V μ ε) (Match : μ → σ → Prop)
    (cond : Config I Q L μ → Choice ε → Prop) : Prop where
  exec : ∀ {i offer m t t' outcome}, Match m t → A.transfer i t = some t' →
    P.exec i offer m = some outcome → ∃ m', outcome = .ok m' ∧ Match m' t'
  fails : ∀ {i offer m t outcome}, Match m t → A.fails i t = true →
    P.exec i offer m = some outcome → ∃ failure, outcome = .error failure
  answer : ∀ {q yes no m t choice}, Match m t → cond ⟨.ask q yes no, m⟩ choice →
    P.answer q m ≠ some (!choice.answer) → A.admits q choice.answer t = true
  blocks : ∀ l t, A.expects l t = true → A.check (P.block l) t (fun _ => false) = true

/-- The rest of the code is accepted from a state that matches the memory. -/
def Accepts (A : Analysis I Q L σ) (Match : μ → σ → Prop) (s : Config I Q L μ) : Prop :=
  ∃ t, Match s.memory t ∧ A.check s.code t (fun _ => false) = true

variable {Match : μ → σ → Prop} {cond : Config I Q L μ → Choice ε → Prop} {s : Config I Q L μ}
  {choice : Choice ε} {outcome : Except V (Config I Q L μ)}

theorem Accepts.code_ne_stop (h : A.Accepts Match s) : s.code ≠ .stop := by
  obtain ⟨t, -, hcheck⟩ := h
  intro hstop
  rw [hstop, check] at hcheck
  cases hcheck

/-- A step of accepted code fails where it is expected to. Else the rest is accepted, unless it was
the last instruction. -/
theorem Sound.step (h : A.Sound P Match cond) (hs : A.Accepts Match s) (hcond : cond s choice)
    (hstep : P.step s choice = some outcome) :
    (∃ s', outcome = .ok s' ∧ A.Accepts Match s') ∨
      (∃ i next t failure, s.code = .instr i next ∧ Match s.memory t ∧ A.fails i t = true ∧
        outcome = .error failure) ∨
      ∃ i t, s.code = .last i ∧ Match s.memory t ∧ A.final i t = true := by
  obtain ⟨code, m⟩ := s
  obtain ⟨t, hmatch, hcheck⟩ := hs
  cases code with
  | stop => cases hcheck
  | last i => exact .inr (.inr ⟨i, t, rfl, hmatch, hcheck⟩)
  | instr i next =>
      obtain ⟨result, hexec, rfl⟩ := Option.map_eq_some_iff.mp hstep
      obtain hfails | ⟨t', htransfer, hnext⟩ := check_instr.mp hcheck
      · obtain ⟨failure, rfl⟩ := h.fails hmatch hfails hexec
        exact .inr (.inl ⟨i, next, t, failure, rfl, hmatch, hfails, rfl⟩)
      · obtain ⟨m', rfl, hmatch'⟩ := h.exec hmatch htransfer hexec
        exact .inl ⟨⟨next, m'⟩, rfl, t', hmatch', hnext⟩
  | ask q yes no =>
      obtain ⟨hyes, hno⟩ := check_ask.mp hcheck
      simp only [Program.step] at hstep
      split at hstep
      · cases hstep
      · rename_i hpossible
        obtain rfl := Option.some.inj hstep
        have hadmits := h.answer hmatch hcond hpossible
        refine .inl ⟨_, rfl, t, hmatch, ?_⟩
        cases hanswer : choice.answer with
        | true => exact hyes (hanswer ▸ hadmits)
        | false => exact hno (hanswer ▸ hadmits)
  | optionally body next =>
      rw [check, Bool.and_eq_true] at hcheck
      obtain rfl := Option.some.inj hstep
      refine .inl ⟨_, rfl, t, hmatch, ?_⟩
      dsimp only
      split
      · refine check_andThen hcheck.1 fun t' ht' => ?_
        rw [of_decide_eq_true ht']
        exact hcheck.2
      · exact hcheck.2
  | iterate body next =>
      have hboth := hcheck
      rw [check, Bool.and_eq_true] at hboth
      obtain rfl := Option.some.inj hstep
      refine .inl ⟨_, rfl, t, hmatch, ?_⟩
      dsimp only
      split
      · refine check_andThen hboth.1 fun t' ht' => ?_
        rw [of_decide_eq_true ht']
        exact hcheck
      · exact hboth.2
  | goto l =>
      obtain rfl := Option.some.inj hstep
      exact .inl ⟨⟨P.block l, m⟩, rfl, t, hmatch, h.blocks l t hcheck⟩

end Analysis

end Typestate
