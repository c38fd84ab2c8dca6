import Nxt.Host.Paths

/- Routes of the HTTP server (host.wisp): the table that DEFROUTE fills, the matching of patterns, the
   lambda list a handler gets from its pattern, and the answer to a request. Lists are Lean's, with
   the searches of base.wisp, and EQUAL? of patterns is equality; NIL for a failure is `none`. -/
namespace Nxt.Host
open Nxt.Lib

def ascii (s : String) : Bytes := s.toList.map fun c => c.toNat.toUInt8

/-- A symbol that a pattern holds: one that Wisp gives a meaning, or a name. -/
inductive Symbol where
  | underscore
  | ampRest
  | ampOptional
  | ampBody
  | named (name : String)
  deriving DecidableEq

inductive Item where
  | string (text : Bytes)
  | symbol (symbol : Symbol)
  deriving DecidableEq

abbrev Pattern := List Item

def Item.isSymbol : Item → Bool
  | .symbol _ => true
  | .string _ => false

section Lists
variable {α β : Type}

def find (predicate : α → Bool) : List α → Option α
  | [] => none
  | x :: list => if predicate x then some x else find predicate list

def includes [DecidableEq α] (list : List α) (item : α) : Bool := (find (fun x => x = item) list).isSome

def findResult (predicate : α → Option β) : List α → Option (α × β)
  | [] => none
  | x :: list =>
    match predicate x with
    | some result => some (x, result)
    | none => findResult predicate list

/-- `filter`, whose accumulator is reversed. -/
def filter (predicate : α → Bool) (acc : List α) : List α → List α
  | [] => acc.reverse
  | x :: list => filter predicate (if predicate x then x :: acc else acc) list

end Lists

section Table
variable {H : Type}

def replaceRoute (pattern : Pattern) (handler : H) : List (Pattern × H) → List (Pattern × H)
  | [] => [(pattern, handler)]
  | route :: routes =>
    if route.1 = pattern then (pattern, handler) :: routes else route :: replaceRoute pattern handler routes

def installRoute (routes : List (Pattern × H)) (call : Pattern × H) : List (Pattern × H) :=
  replaceRoute call.1 call.2 routes

/-- The lambda list that DEFROUTE gives to the handler of a pattern. -/
def lambdaList (pattern : Pattern) : List Item :=
  filter (fun x => x.isSymbol && x ≠ .symbol .underscore) [] pattern

def matchRoute : Pattern → List Bytes → List Bytes → Option (List Bytes)
  | [], parts, acc => if parts = [] then some acc.reverse else none
  | item :: pattern, parts, acc =>
    if item = .symbol .ampRest then some (acc.reverse ++ parts)
    else match parts with
      | [] => none
      | part :: parts =>
        if item = .symbol .underscore then matchRoute pattern parts acc
        else if item.isSymbol then matchRoute pattern parts (part :: acc)
        else if item = .string part then matchRoute pattern parts acc
        else none

def findRoute (routes : List (Pattern × H)) (method : Bytes) (segments : List Bytes) :
    Option ((Pattern × H) × List Bytes) :=
  findResult (fun route => matchRoute route.1 (method :: segments) []) routes

/-- The function that `%allowed-methods` reduces the table by. -/
def allowMethod (segments allowed : List Bytes) (route : Pattern × H) : List Bytes :=
  match route.1.head? with
  | some (.string method) =>
    if !includes allowed method && (matchRoute route.1.tail segments []).isSome then
      allowed ++ (if method = ascii "GET" && !includes allowed (ascii "HEAD") then [method, ascii "HEAD"] else [method])
    else allowed
  | _ => allowed

def allowedMethods (routes : List (Pattern × H)) (segments : List Bytes) : List Bytes :=
  routes.foldl (allowMethod segments) []

/-- What a request comes to: a handler applied to its arguments, or a response without one. -/
inductive Answer (H : Type) where
  | apply (handler : H) (args : List Bytes)
  | respond (status : Nat) (headers : List (Bytes × Bytes)) (body : Bytes)
  deriving DecidableEq

def routeRequest (routes : List (Pattern × H)) (method : Bytes) (segments : List Bytes) : Answer H :=
  let found :=
    match findRoute routes method segments with
    | some found => some found
    | none => if method = ascii "HEAD" then findRoute routes (ascii "GET") segments else none
  match found with
  | some (route, bindings) => .apply route.2 bindings
  | none =>
    let allowed := allowedMethods routes segments
    if allowed = [] then .respond 404 [] (ascii "Not Found\n")
    else .respond 405 [(ascii "Allow", joinStrings (ascii ", ") allowed)] (ascii "Method Not Allowed\n")

end Table

/-! ### Applying a handler -/

inductive Bound where
  | one (argument : Bytes)
  | rest (arguments : List Bytes)
  | nil
  deriving DecidableEq

inductive BindError where
  | invalidParameters
  | typeMismatch
  | invalidArgumentCount
  deriving DecidableEq

/-- The loop of `bind` (eval.cpp) over a lambda list: the scope, and the arguments it leaves. -/
def bindLoop : List Item → Bool → List Bytes → Except BindError (List (Symbol × Bound) × List Bytes)
  | [], _, args => .ok ([], args)
  | .string _ :: _, _, _ => .error .typeMismatch
  | .symbol p :: rest, optional, args =>
    if p = .ampOptional then bindLoop rest true args
    else if p = .ampRest ∨ p = .ampBody then
      match rest with
      | [.symbol tail] => .ok ([(tail, .rest args)], [])
      | [.string _] => .error .typeMismatch
      | _ => .error .invalidParameters
    else
      match args with
      | [] =>
        if optional then (bindLoop rest optional []).map fun bound => ((p, .nil) :: bound.1, bound.2)
        else .error .invalidArgumentCount
      | arg :: args => (bindLoop rest optional args).map fun bound => ((p, .one arg) :: bound.1, bound.2)

def bind (parameters : List Item) (args : List Bytes) : Except BindError (List (Symbol × Bound)) := do
  let (scope, left) ← bindLoop parameters false args
  if left = [] then .ok scope else .error .invalidArgumentCount

/-! ### What routes are to do -/

inductive Plain : Item → Prop where
  | string (text : Bytes) : Plain (.string text)
  | skip : Plain (.symbol .underscore)
  | name (name : String) : Plain (.symbol (.named name))

/-- What may follow the method. -/
inductive Path : Pattern → Prop where
  | nil : Path []
  | rest (name : String) : Path [.symbol .ampRest, .symbol (.named name)]
  | cons {item : Item} {path : Pattern} (plain : Plain item) (more : Path path) : Path (item :: path)

inductive WellFormed : Pattern → Prop where
  | pattern {method : Item} {path : Pattern} (plain : Plain method) (more : Path path) : WellFormed (method :: path)

inductive Matches : Pattern → List Bytes → List (Symbol × Bound) → Prop where
  | nil : Matches [] [] []
  | string {text : Bytes} {pattern : Pattern} {parts : List Bytes} {scope : List (Symbol × Bound)}
      (more : Matches pattern parts scope) : Matches (.string text :: pattern) (text :: parts) scope
  | skip {part : Bytes} {pattern : Pattern} {parts : List Bytes} {scope : List (Symbol × Bound)}
      (more : Matches pattern parts scope) : Matches (.symbol .underscore :: pattern) (part :: parts) scope
  | name {name : String} {part : Bytes} {pattern : Pattern} {parts : List Bytes} {scope : List (Symbol × Bound)}
      (more : Matches pattern parts scope) :
      Matches (.symbol (.named name) :: pattern) (part :: parts) ((.named name, .one part) :: scope)
  | rest (name : String) (parts : List Bytes) :
      Matches [.symbol .ampRest, .symbol (.named name)] parts [(.named name, .rest parts)]

def Fits (pattern : Pattern) (parts : List Bytes) : Prop := ∃ scope, Matches pattern parts scope

section Spec
variable {H : Type}

inductive First (routes : List (Pattern × H)) (parts : List Bytes) (route : Pattern × H)
    (scope : List (Symbol × Bound)) : Prop where
  | found (before after : List (Pattern × H)) (split : routes = before ++ route :: after)
      (earlier : ∀ other ∈ before, ¬ Fits other.1 parts) (held : Matches route.1 parts scope)

def Serves (routes : List (Pattern × H)) (segments : List Bytes) (method : Bytes) : Prop :=
  ∃ route ∈ routes, ∃ path, route.1 = .string method :: path ∧ Fits path segments

def Unrouted (routes : List (Pattern × H)) (method : Bytes) (segments : List Bytes) : Prop :=
  (∀ route ∈ routes, ¬ Fits route.1 (method :: segments)) ∧
    (method = ascii "HEAD" → ∀ route ∈ routes, ¬ Fits route.1 (ascii "GET" :: segments))

structure Allows (routes : List (Pattern × H)) (segments allowed : List Bytes) : Prop where
  nodup : allowed.Nodup
  mem : ∀ method, method ∈ allowed ↔
    Serves routes segments method ∨ (method = ascii "HEAD" ∧ Serves routes segments (ascii "GET"))

/-- What a request is to come to. -/
inductive Answers (routes : List (Pattern × H)) (method : Bytes) (segments : List Bytes) : Answer H → Prop where
  | handled {route : Pattern × H} {scope : List (Symbol × Bound)} {args : List Bytes}
      (first : First routes (method :: segments) route scope) (applied : bind (lambdaList route.1) args = .ok scope) :
      Answers routes method segments (.apply route.2 args)
  | fallback {route : Pattern × H} {scope : List (Symbol × Bound)} {args : List Bytes} (head : method = ascii "HEAD")
      (none : ∀ route ∈ routes, ¬ Fits route.1 (method :: segments))
      (first : First routes (ascii "GET" :: segments) route scope)
      (applied : bind (lambdaList route.1) args = .ok scope) : Answers routes method segments (.apply route.2 args)
  | refused {allowed : List Bytes} (unrouted : Unrouted routes method segments)
      (allows : Allows routes segments allowed) (some : allowed ≠ []) :
      Answers routes method segments
        (.respond 405 [(ascii "Allow", joinStrings (ascii ", ") allowed)] (ascii "Method Not Allowed\n"))
  | missing (unrouted : Unrouted routes method segments) (none : ∀ other, ¬ Serves routes segments other) :
      Answers routes method segments (.respond 404 [] (ascii "Not Found\n"))

end Spec

end Nxt.Host
