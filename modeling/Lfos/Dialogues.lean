import Mathlib.Logic.Basic

/-!
# Programs that ask

A program asks requests one after the other, and goes on depending on the answers. Between
two requests anything may happen elsewhere, so a program is the tree of its requests. It is
run against a server in one go, or a request at a time.
-/

namespace Lfos.Dialogues

variable {Request Answer Result Other : Type}

inductive Dialogue (Request Answer Result : Type) where
  | done (result : Result)
  | ask (request : Request) (next : Answer → Dialogue Request Answer Result)

def Dialogue.bind : Dialogue Request Answer Result → (Result → Dialogue Request Answer Other) →
    Dialogue Request Answer Other
  | .done result, rest => rest result
  | .ask request next, rest => .ask request (fun answer => (next answer).bind rest)

instance : Monad (Dialogue Request Answer) where
  pure := .done
  bind := Dialogue.bind

@[simp] theorem pure_eq (result : Result) : (pure result : Dialogue Request Answer Result) = .done result := rfl

@[simp] theorem done_bind (result : Result) (rest : Result → Dialogue Request Answer Other) :
    (Dialogue.done result >>= rest) = rest result := rfl

/-- One request, whose answer is the result. -/
def request (request : Request) : Dialogue Request Answer Answer := .ask request .done

@[simp] theorem request_bind (asked : Request) (rest : Answer → Dialogue Request Answer Other) :
    (request asked >>= rest) = .ask asked rest := rfl

/-- Run against a server with a state, in one go. -/
def Dialogue.run {State Error : Type} (serve : State → Request → Except Error (Answer × State)) :
    Dialogue Request Answer Result → State → Except Error (Result × State)
  | .done result, state => .ok (result, state)
  | .ask request next, state => do
    let (answer, after) ← serve state request
    (next answer).run serve after

/-- Some answers lead to a request. -/
inductive Dialogue.MayAsk (wanted : Request → Prop) : Dialogue Request Answer Result → Prop where
  | now {request : Request} {next : Answer → Dialogue Request Answer Result} (here : wanted request) :
      Dialogue.MayAsk wanted (.ask request next)
  | later {request : Request} {next : Answer → Dialogue Request Answer Result} (answer : Answer)
      (there : Dialogue.MayAsk wanted (next answer)) : Dialogue.MayAsk wanted (.ask request next)

end Lfos.Dialogues
