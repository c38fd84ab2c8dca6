import Nxt.Ai.ToolJson
import Nxt.Ai.Tools

/- The agent loop (agent.hpp). The transport, the observer and the tools answer in any way; one step
   is one of their answers or what the loop does between two of them. -/
namespace Nxt.Ai
open Nxt.Lib

structure ToolDefinition where
  name : Bytes
  description : Bytes := []
  parameters : Bytes := []
  strict : Bool := true
  deriving DecidableEq

/-- `openai_responses_request`, less what `run_agent` passes through untouched. -/
structure Request where
  input : Bytes := []
  inputItems : List Bytes := []
  tools : List ToolDefinition := []
  include_ : List Bytes := []
  previousResponseId : Bytes := []
  store : Bool := false
  deriving DecidableEq

def inputItemsFromRequest (request : Request) : List Bytes :=
  if request.inputItems ≠ [] then request.inputItems
  else if request.input ≠ [] then
    [lit "\x7b" ++ key (lit "role") ++ string (lit "user") ++ lit "," ++ key (lit "content") ++
      string request.input ++ lit "\x7d"]
  else []

structure Response where
  id : Bytes := []
  outputItems : List Bytes := []
  deriving DecidableEq

structure Options where
  maxTurns : Nat := 32
  toolConcurrency : Nat := 1
  deriving DecidableEq

/-- What the loop is called with; `continues` is the transport's `supports_unstored_continuation`. -/
structure Setup where
  request : Request
  registry : List FunctionToolEntry
  continues : Bool := false
  options : Options := {}
  deriving DecidableEq

namespace Setup

def continuation (c : Setup) : Bool := c.request.store || c.continues

def withTools (tools : List ToolDefinition) : List FunctionToolEntry → List ToolDefinition
  | [] => tools
  | entry :: rest =>
    if tools.any (·.name = entry.name) then withTools tools rest
    else withTools (tools ++ [⟨entry.name, entry.description, entry.parameters, entry.strict⟩]) rest

def first (c : Setup) : Request :=
  let request := { c.request with tools := withTools c.request.tools c.registry }
  let encrypted := lit "reasoning.encrypted_content"
  if !request.store && c.registry ≠ [] && !request.include_.contains encrypted then
    { request with include_ := request.include_ ++ [encrypted] }
  else request

end Setup

def typeKey : Bytes := lit "type"

def readCalls (calls : List FunctionCall) : List Bytes → Except Error (List FunctionCall)
  | [] => .ok calls
  | item :: rest =>
    match jsonStringMember item typeKey with
    | none => .error (.runtime "response output item missing type")
    | some type =>
      if type ≠ lit "function_call" then readCalls calls rest
      else do
        match ← readFunctionCallFromItem item with
        | none => .error (.runtime "malformed completed function call")
        | some call =>
          if call.arguments = [] then .error (.runtime "malformed completed function call")
          else if calls.any (·.callId = call.callId) then .error (.runtime "duplicate function call id")
          else readCalls (calls ++ [call]) rest

/-- Where the loop is. `announcing` and `reporting` are at the observer's call for the element of
    that index. -/
inductive Phase where
  | top
  | requesting
  | announcing (response : Response) (calls : List FunctionCall) (i : Nat)
  | running (response : Response) (batch : Batch)
  | reporting (response : Response) (results : List FunctionCallResult) (i : Nat)
  | returned
  | threw (e : Error)

/-- One run of `run_function_call`: the turn and the position of its call, the entry that handles it
    and the arguments that this entry gets. -/
structure Run where
  turn : Nat
  index : Nat
  tool : Option Nat
  arguments : Bytes
  deriving DecidableEq

structure Turn where
  response : Response
  results : List FunctionCallResult
  deriving DecidableEq

/-- `sent`, `replies`, `runs`, `ends`, `settled` and `turns` tell what happened; the loop reads none of
    them. -/
structure Agent where
  request : Request
  history : List Bytes
  turn : Nat := 0
  phase : Phase := .top
  sent : List Request := []
  replies : List Response := []
  runs : List Run := []
  ends : List (Nat × Nat × ToolEnd) := []
  /-- The turns whose batch settled: with results, or with an exception that it held until then. -/
  settled : List Nat := []
  turns : List Turn := []

namespace Agent
variable (c : Setup)

def start : Agent where
  request := c.first
  history := inputItemsFromRequest c.first
  phase :=
    if c.options.maxTurns = 0 ∨ c.options.toolConcurrency = 0 then .threw (.runtime "agent limits must be nonzero")
    else .top

def throw_ (s : Agent) (e : Error) : Agent := { s with phase := .threw e }

/-- The head of the loop, `stop` telling whether a stop was requested. -/
def head (s : Agent) (stop : Bool) : Agent :=
  if s.turn < c.options.maxTurns then
    if stop then s.throw_ .operationCancelled
    else { s with phase := .requesting, sent := s.sent ++ [s.request] }
  else { s with phase := .returned }

def respond (s : Agent) (response : Response) : Agent :=
  let s := { s with replies := s.replies ++ [response] }
  match readCalls [] response.outputItems with
  | .error e => s.throw_ e
  | .ok calls =>
    if calls = [] then { s with phase := .returned }
    else if s.turn + 1 = c.options.maxTurns then
      s.throw_ (.runtime "agent turn limit reached before executing tools")
    else if c.continuation && response.id = [] then s.throw_ (.runtime "tool response missing response id")
    else { s with phase := .announcing response calls 0 }

def continue_ (s : Agent) (response : Response) (results : List FunctionCallResult) : Agent :=
  let outputs := results.map (·.outputItem)
  let turns := s.turns ++ [⟨response, results⟩]
  if c.continuation then
    { s with
      request := { s.request with input := [], previousResponseId := response.id, inputItems := outputs }
      turn := s.turn + 1, phase := .top, turns }
  else
    let history := s.history ++ response.outputItems ++ outputs
    { s with
      request := { s.request with input := [], inputItems := history }
      history, turn := s.turn + 1, phase := .top, turns }

inductive Action where
  | head (stop : Bool)
  | respond (response : Response)
  | observed
  /-- The transport or the observer throws, or a stop reaches it. -/
  | threw (e : Error)
  | start
  | finish (i : Nat) (how : ToolEnd)
  | stop
  /-- The batch returns, or `drain` throws. -/
  | settled
  | cancelled

def observe (s : Agent) : Option Agent :=
  match s.phase with
  | .announcing response calls i =>
    if i < calls.length then some { s with phase := .announcing response calls (i + 1) }
    else some { s with phase := .running response (.of calls c.options.toolConcurrency) }
  | .reporting response results i =>
    if i < results.length then some { s with phase := .reporting response results (i + 1) }
    else some (s.continue_ c response results)
  | _ => none

def startCall (s : Agent) (response : Response) (batch : Batch) : Option Agent :=
  batch.start.map fun p =>
    { s with
      phase := .running response p.2
      runs := s.runs ++ [⟨s.turn, batch.next, toolOf c.registry p.1, p.1.arguments⟩] }

def finishCall (s : Agent) (response : Response) (batch : Batch) (i : Nat) (how : ToolEnd) : Option Agent :=
  if i ∈ batch.running then
    batch.calls[i]?.bind fun call =>
      -- an unknown tool has one way to end
      if toolOf c.registry call = none ∧ how ≠ .result unknownTool then none
      else some { s with
        phase := .running response (batch.finish i call how)
        ends := s.ends ++ [(s.turn, i, how)] }
  else none

/-- The end of the batch without a cancellation. -/
def settle (s : Agent) (response : Response) (batch : Batch) : Option Agent :=
  if batch.running = [] ∧ batch.failed = false then
    let s := { s with settled := s.settled ++ [s.turn] }
    batch.results.map fun
      | .ok results => { s with phase := .reporting response results 0 }
      | .error e => s.throw_ e
  else none

def step (s : Agent) : Action → Option Agent
  | .head stop => match s.phase with
    | .top => some (s.head c stop)
    | _ => none
  | .respond response => match s.phase with
    | .requesting => some (s.respond c response)
    | _ => none
  | .observed => s.observe c
  | .threw e => match s.phase with
    | .requesting | .announcing _ _ _ | .reporting _ _ _ => some (s.throw_ e)
    | _ => none
  | .start => match s.phase with
    | .running response batch => s.startCall c response batch
    | _ => none
  | .finish i how => match s.phase with
    | .running response batch => s.finishCall c response batch i how
    | _ => none
  | .stop => match s.phase with
    | .running response batch => some { s with phase := .running response { batch with stopping := true } }
    | _ => none
  | .settled => match s.phase with
    | .running response batch => s.settle response batch
    | _ => none
  | .cancelled => match s.phase with
    | .running _ batch =>
      if batch.running = [] ∧ (batch.failed ∨ batch.stopping) then some (s.throw_ .operationCancelled) else none
    | _ => none

def run (s : Agent) (acts : List Action) : Option Agent := acts.foldlM (step c) s

end Agent
end Nxt.Ai
