import Nxt.Ai.Json

/- Function calls of a response and the batch that runs them (tool_batch.hpp). What a tool does when
   it runs is left open; the batch is told how each run ends, in any order. -/
namespace Nxt.Ai
open Nxt.Lib

structure FunctionCall where
  id : Bytes := []
  callId : Bytes := []
  name : Bytes := []
  arguments : Bytes := []
  item : Bytes := []
  deriving DecidableEq

/-- `read_json_string_token` with `value_or` of the empty string. -/
def readJsonStringToken (e : Option Error) : List Token → Except Error (Bytes × List Token)
  | [] => match e with
    | none => .ok ([], [])
    | some e => .error e
  | .string text :: tokens => .ok (text, tokens)
  | _ :: tokens => .ok ([], tokens)

def readMember (e : Option Error) (key : Bytes) (call : FunctionCall) (type : Bytes) (tokens : List Token) :
    Except Error (Option ((FunctionCall × Bytes) × List Token)) := do
  if key = lit "id" then
    let (text, rest) ← readJsonStringToken e tokens
    .ok (some (({ call with id := text }, type), rest))
  else if key = lit "type" then
    let (text, rest) ← readJsonStringToken e tokens
    .ok (some ((call, text), rest))
  else if key = lit "call_id" then
    let (text, rest) ← readJsonStringToken e tokens
    .ok (some (({ call with callId := text }, type), rest))
  else if key = lit "name" then
    let (text, rest) ← readJsonStringToken e tokens
    .ok (some (({ call with name := text }, type), rest))
  else if key = lit "arguments" then
    let (text, rest) ← readJsonStringToken e tokens
    .ok (some (({ call with arguments := text }, type), rest))
  else
    let rest ← skipNextJsonValue e tokens
    .ok (rest.map fun rest => ((call, type), rest))

theorem readJsonStringToken_shorter {e : Option Error} {tokens rest : List Token} {text : Bytes}
    (read : readJsonStringToken e tokens = .ok (text, rest)) : rest.length ≤ tokens.length := by
  unfold readJsonStringToken at read
  split at read
  · split at read
    · cases read
      exact le_rfl
    · cases read
  · cases read
    exact Nat.le_succ _
  · cases read
    exact Nat.le_succ _

theorem skipNextJsonValue_shorter {e : Option Error} {tokens rest : List Token}
    (skipped : skipNextJsonValue e tokens = .ok (some rest)) : rest.length ≤ tokens.length := by
  cases tokens with
  | nil => cases e <;> cases skipped
  | cons t tokens => exact (skipOpen_shorter skipped).trans (Nat.le_succ _)

theorem readMember_shorter {e : Option Error} {key type : Bytes} {call : FunctionCall} {tokens rest : List Token}
    {found : FunctionCall × Bytes} (read : readMember e key call type tokens = .ok (some (found, rest))) :
    rest.length ≤ tokens.length := by
  have text {f : Bytes → FunctionCall × Bytes}
      (read : (readJsonStringToken e tokens >>= fun p => .ok (some (f p.1, p.2))) = .ok (some (found, rest))) :
      rest.length ≤ tokens.length := by
    obtain ⟨⟨text, left⟩, first, same⟩ := bind_ok read
    cases same
    exact readJsonStringToken_shorter first
  unfold readMember at read
  split at read
  · exact text (f := fun text => ({ call with id := text }, type)) read
  split at read
  · exact text (f := fun text => (call, text)) read
  split at read
  · exact text (f := fun text => ({ call with callId := text }, type)) read
  split at read
  · exact text (f := fun text => ({ call with name := text }, type)) read
  split at read
  · exact text (f := fun text => ({ call with arguments := text }, type)) read
  · obtain ⟨left, skipped, same⟩ := bind_ok read
    cases left with
    | none => cases same
    | some left =>
      cases same
      exact skipNextJsonValue_shorter skipped

/-- The loop of `read_function_call_from_item`: the call and its type at the closing brace. -/
def readMembers (e : Option Error) (call : FunctionCall) (type : Bytes) :
    List Token → Except Error (Option (FunctionCall × Bytes))
  | [] => atEnd e
  | .objectEnd :: _ => .ok (some (call, type))
  | .string key :: rest =>
    match rest with
    | [] => atEnd e
    | .colon :: rest =>
      match _read : readMember e key call type rest with
      | .error e => .error e
      | .ok none => .ok none
      | .ok (some ((call, type), after)) =>
        match _next : after with
        | [] => atEnd e
        | .objectEnd :: _ => .ok (some (call, type))
        | .comma :: after' => readMembers e call type after'
        | _ => .ok none
    | _ => .ok none
  | _ => .ok none
  termination_by tokens => tokens.length
  decreasing_by
    have shorter := readMember_shorter _read
    simp only [List.length_cons] at shorter ⊢
    omega

def readFunctionCallFromItem (item : Bytes) : Except Error (Option FunctionCall) :=
  if item = [] then .ok none
  else match readTokens item with
    | ([], e) => atEnd e
    | (.objectBegin :: tokens, e) => do
      match ← readMembers e { item } [] tokens with
      | none => .ok none
      | some (call, type) =>
        if type ≠ lit "function_call" ∨ call.callId = [] ∨ call.name = [] then .ok none else .ok (some call)
    | _ => .ok none

structure ToolResult where
  failed : Bool := false
  output : Bytes
  deriving DecidableEq

def functionCallOutput (callId output : Bytes) : Bytes :=
  lit "\x7b" ++ key (lit "type") ++ string (lit "function_call_output") ++ lit "," ++ key (lit "call_id") ++
    string callId ++ lit "," ++ key (lit "output") ++ string output ++ lit "\x7d"

def toolResultJson (result : ToolResult) : Bytes :=
  lit "\x7b" ++ key (lit "failed") ++ boolean result.failed ++ lit "," ++ key (lit "output") ++
    string result.output ++ lit "\x7d"

/-- `function_tool_entry`; its `run` is what the batch is told. -/
structure FunctionToolEntry where
  name : Bytes
  description : Bytes
  parameters : Bytes
  strict : Bool := true
  deriving DecidableEq

structure FunctionCallResult where
  call : FunctionCall
  result : ToolResult
  outputItem : Bytes
  deriving DecidableEq

def toolOf (tools : List FunctionToolEntry) (call : FunctionCall) : Option Nat :=
  tools.findIdx? fun tool => tool.name = call.name

def unknownTool : ToolResult := { failed := true, output := lit "unknown tool" }

inductive ToolEnd where
  | result (r : ToolResult)
  | threw (e : Error)
  deriving DecidableEq

/-- A batch under `drain`: the calls it has yet to take from its input, those that run, and the
    outcomes by input position. `failed` is a job that ended with a cancellation. -/
structure Batch where
  calls : List FunctionCall
  capacity : Nat
  next : Nat := 0
  running : List Nat := []
  outcomes : List (Option (Except Error FunctionCallResult))
  failed : Bool := false
  stopping : Bool := false

namespace Batch

def of (calls : List FunctionCall) (maxInFlight : Nat) : Batch :=
  { calls, capacity := min maxInFlight calls.length, outcomes := calls.map fun _ => none }

def start (b : Batch) : Option (FunctionCall × Batch) :=
  if b.stopping then none
  else if b.running.length < b.capacity then
    b.calls[b.next]?.map fun call => (call, { b with next := b.next + 1, running := b.running ++ [b.next] })
  else none

def finish (b : Batch) (i : Nat) (call : FunctionCall) (how : ToolEnd) : Batch :=
  let b := { b with running := b.running.filter (· ≠ i) }
  match how with
  | .result r =>
    let output := functionCallOutput call.callId (toolResultJson r)
    { b with outcomes := b.outcomes.set i (some (.ok ⟨call, r, output⟩)) }
  | .threw .operationCancelled => { b with failed := true }
  | .threw e => { b with outcomes := b.outcomes.set i (some (.error e)) }

def results (b : Batch) : Option (Except Error (List FunctionCallResult)) :=
  (b.outcomes.mapM id).map fun outcomes => outcomes.mapM id

end Batch
end Nxt.Ai
