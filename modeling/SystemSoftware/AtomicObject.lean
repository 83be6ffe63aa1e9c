import SystemSoftware.Transitions
import Mathlib.Logic.Function.Basic

/-!
Objects whose operations take effect at once. A client calls an operation, the object takes
it in one move, and the client returns with the result; what is seen are the calls and the
returns in their order. A history that such an object can have is linearizable: between each
call and its return there is a moment at which the operation is executed, alone. That a
system has no other histories is shown by a relation to the object which its steps keep.
-/
namespace SystemSoftware.AtomicObject

open Transitions

variable {ι σ τ α Op Res : Type*} [DecidableEq ι]

inductive Event (ι Op Res : Type*)
  | call (i : ι) (op : Op)
  | ret (i : ι) (res : Res)
  deriving DecidableEq

inductive Move (ι Op Res : Type*)
  | seen (e : Event ι Op Res)
  | take (i : ι)

def Move.event? : Move ι Op Res → Option (Event ι Op Res)
  | .seen e => some e
  | .take _ => none

inductive Client (Op Res : Type*)
  | idle
  | called (op : Op)
  | served (res : Res)

structure State (ι σ Op Res : Type*) where
  object : σ
  clients : ι → Client Op Res

def State.set (x : State ι σ Op Res) (i : ι) (c : Client Op Res) : State ι σ Op Res :=
  { x with clients := Function.update x.clients i c }

def initial (a : σ) : State ι σ Op Res := ⟨a, fun _ => .idle⟩

/-- The moves of an object of which an operation gives the next state and a result. -/
inductive Step (spec : σ → Op → σ × Res) :
    State ι σ Op Res → Move ι Op Res → State ι σ Op Res → Prop
  | call {x : State ι σ Op Res} {i : ι} {op : Op} (h : x.clients i = .idle) :
      Step spec x (.seen (.call i op)) (x.set i (.called op))
  | take {x : State ι σ Op Res} {i : ι} {op : Op} (h : x.clients i = .called op) :
      Step spec x (.take i)
        { x.set i (.served (spec x.object op).2) with object := (spec x.object op).1 }
  | ret {x : State ι σ Op Res} {i : ι} {res : Res} (h : x.clients i = .served res) :
      Step spec x (.seen (.ret i res)) (x.set i .idle)

def object (spec : σ → Op → σ × Res) (a : σ) : System (State ι σ Op Res) (Move ι Op Res) where
  initial := (· = initial a)
  step := Step spec

/-- The history is one of the object, which has then become `b`. -/
def Linearizes (spec : σ → Op → σ × Res) (a : σ) (history : List (Event ι Op Res)) (b : σ) :
    Prop :=
  ∃ moves clients, (object spec a).Run (initial a) moves ⟨b, clients⟩ ∧
    moves.filterMap Move.event? = history

/-- A relation of the states of a system to those of the object that is there at the
beginning and can be kept by every step, with at most one move of the object. -/
theorem linearizes_of_simulation {spec : σ → Op → σ × Res} {a : σ} {S : System τ α}
    {history : τ → List (Event ι Op Res)} {R : τ → State ι σ Op Res → Prop}
    (hinit : ∀ s, S.initial s → history s = [] ∧ R s (initial a))
    (hstep : ∀ s m s' x, R s x → S.step s m s' →
      (history s' = history s ∧ R s' x) ∨ ∃ move x', Step spec x move x' ∧
        history s' = history s ++ move.event?.toList ∧ R s' x') {s : τ} (hs : S.Reachable s) :
    ∃ x, R s x ∧ Linearizes spec a (history s) x.object := by
  have hrun : ∃ moves x, (object spec a).Run (initial a) moves x ∧
      moves.filterMap Move.event? = history s ∧ R s x := by
    refine hs.invariant (I := fun s => ∃ moves x, (object spec a).Run (initial a) moves x ∧
      moves.filterMap Move.event? = history s ∧ R s x) ?_ ?_
    · intro s h
      obtain ⟨hnil, hR⟩ := hinit s h
      exact ⟨[], _, .nil, hnil.symm, hR⟩
    · rintro s m s' ⟨moves, x, hrun, hseen, hR⟩ hstep'
      rcases hstep s m s' x hR hstep' with ⟨hsame, hR'⟩ | ⟨move, x', hmove, hnew, hR'⟩
      · exact ⟨moves, x, hrun, hseen.trans hsame.symm, hR'⟩
      · refine ⟨moves ++ [move], x', hrun.append (.cons hmove .nil), ?_, hR'⟩
        rw [List.filterMap_append, hseen, hnew]
        cases move <;> rfl
  obtain ⟨moves, x, hrun, hseen, hR⟩ := hrun
  exact ⟨x, hR, moves, x.clients, hrun, hseen⟩

end SystemSoftware.AtomicObject
