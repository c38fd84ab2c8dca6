import Nxt.Host.Routes

/- Routing: the table keeps the order of first definition, a request goes to the first route that
   matches it with the arguments its lambda list takes, and a refusal names the methods that would
   have been served. -/
namespace Nxt.Host
open Nxt.Lib List

section Lists
variable {α β : Type}

theorem includes_iff [DecidableEq α] (list : List α) (item : α) : includes list item = true ↔ item ∈ list := by
  unfold includes
  induction list with
  | nil => simp [find]
  | cons x list ih =>
    rw [find, mem_cons]
    by_cases same : x = item
    · simp [same]
    · simp [same, ih, Ne.symm same]

theorem filter_eq (predicate : α → Bool) (acc list : List α) :
    filter predicate acc list = acc.reverse ++ list.filter predicate := by
  induction list generalizing acc with
  | nil => rw [filter, filter_nil, append_nil]
  | cons x list ih =>
    rw [filter, ih, filter_cons]
    by_cases held : predicate x = true
    · rw [if_pos held, if_pos held, reverse_cons, append_assoc, singleton_append]
    · rw [if_neg held, if_neg held]

theorem findResult_some {f : α → Option β} {list : List α} {x : α} {y : β} (found : findResult f list = some (x, y)) :
    ∃ before after, list = before ++ x :: after ∧ (∀ other ∈ before, f other = none) ∧ f x = some y := by
  induction list with
  | nil => cases found
  | cons z list ih =>
    rw [findResult] at found
    cases here : f z with
    | some result =>
      rw [here] at found
      cases found
      exact ⟨[], list, rfl, nofun, here⟩
    | none =>
      rw [here] at found
      obtain ⟨before, after, rfl, earlier, last⟩ := ih found
      exact ⟨z :: before, after, rfl, forall_mem_cons.mpr ⟨here, earlier⟩, last⟩

theorem findResult_none {f : α → Option β} {list : List α} (found : findResult f list = none) :
    ∀ x ∈ list, f x = none := by
  induction list with
  | nil => nofun
  | cons z list ih =>
    rw [findResult] at found
    cases here : f z with
    | some result =>
      rw [here] at found
      cases found
    | none =>
      rw [here] at found
      exact forall_mem_cons.mpr ⟨here, ih found⟩

end Lists

/-! ### Matching and binding -/

def Bound.values : Bound → List Bytes
  | .one argument => [argument]
  | .rest arguments => arguments
  | .nil => []

def arguments (scope : List (Symbol × Bound)) : List Bytes := scope.flatMap fun bound => bound.2.values

theorem WellFormed.path {pattern : Pattern} (formed : WellFormed pattern) : Path pattern := by
  obtain ⟨plain, more⟩ := formed
  exact .cons plain more

theorem matchRoute_matches {pattern : Pattern} {parts : List Bytes} {scope : List (Symbol × Bound)}
    (held : Matches pattern parts scope) (acc : List Bytes) :
    matchRoute pattern parts acc = some (acc.reverse ++ arguments scope) := by
  induction held generalizing acc with
  | nil => simp [matchRoute, arguments]
  | string _ ih => simp [matchRoute, Item.isSymbol, ih]
  | skip _ ih => simp [matchRoute, ih]
  | name _ ih => simp [matchRoute, Item.isSymbol, ih, arguments, Bound.values]
  | rest name parts => simp [matchRoute, arguments, Bound.values]

theorem matches_matchRoute {path : Pattern} (formed : Path path) {parts acc args : List Bytes}
    (found : matchRoute path parts acc = some args) :
    ∃ scope, Matches path parts scope ∧ args = acc.reverse ++ arguments scope := by
  induction formed generalizing parts acc with
  | nil =>
    rw [matchRoute] at found
    split at found
    · rename_i ends
      cases found
      exact ⟨[], by rw [ends]; exact .nil, (append_nil _).symm⟩
    · cases found
  | rest name =>
    unfold matchRoute at found
    rw [if_pos rfl] at found
    cases found
    exact ⟨_, .rest name parts, by simp [arguments, Bound.values]⟩
  | cons plain _ ih =>
    cases plain with
    | string text =>
      unfold matchRoute at found
      rw [if_neg nofun] at found
      cases parts with
      | nil => cases found
      | cons part parts =>
        dsimp only at found
        rw [if_neg nofun, if_neg nofun] at found
        split at found
        · rename_i same
          cases same
          obtain ⟨scope, held, rfl⟩ := ih found
          exact ⟨scope, .string held, rfl⟩
        · cases found
    | skip =>
      unfold matchRoute at found
      rw [if_neg nofun] at found
      cases parts with
      | nil => cases found
      | cons part parts =>
        dsimp only at found
        rw [if_pos rfl] at found
        obtain ⟨scope, held, rfl⟩ := ih found
        exact ⟨scope, .skip held, rfl⟩
    | name name =>
      unfold matchRoute at found
      rw [if_neg nofun] at found
      cases parts with
      | nil => cases found
      | cons part parts =>
        dsimp only at found
        rw [if_neg nofun, if_pos (show Item.isSymbol (.symbol (.named name)) = true from rfl)] at found
        obtain ⟨scope, held, rfl⟩ := ih found
        refine ⟨_, .name held, ?_⟩
        simp [arguments, Bound.values]

theorem matchRoute_isSome {path : Pattern} (formed : Path path) (parts : List Bytes) :
    (matchRoute path parts []).isSome = true ↔ Fits path parts := by
  constructor
  · intro found
    obtain ⟨args, found⟩ := Option.isSome_iff_exists.mp found
    obtain ⟨scope, held, -⟩ := matches_matchRoute formed found
    exact ⟨scope, held⟩
  · rintro ⟨scope, held⟩
    rw [matchRoute_matches held []]
    rfl

theorem matchRoute_none {path : Pattern} (formed : Path path) {parts : List Bytes}
    (found : matchRoute path parts [] = none) : ¬ Fits path parts := by
  intro fits
  have isSome := (matchRoute_isSome formed parts).mpr fits
  rw [found] at isSome
  cases isSome

theorem lambdaList_cons (item : Item) (pattern : Pattern) : lambdaList (item :: pattern) =
    if (item.isSymbol && item ≠ .symbol .underscore) = true then item :: lambdaList pattern else lambdaList pattern := by
  simp only [lambdaList, filter_eq, reverse_nil, nil_append, filter_cons]

theorem bindLoop_matches {pattern : Pattern} {parts : List Bytes} {scope : List (Symbol × Bound)}
    (held : Matches pattern parts scope) : bindLoop (lambdaList pattern) false (arguments scope) = .ok (scope, []) := by
  induction held with
  | nil => rfl
  | string _ ih =>
    rw [lambdaList_cons, if_neg (by simp [Item.isSymbol])]
    exact ih
  | skip _ ih =>
    rw [lambdaList_cons, if_neg (by simp [Item.isSymbol])]
    exact ih
  | @name name part pattern parts scope _ ih =>
    have first : arguments ((.named name, .one part) :: scope) = part :: arguments scope := rfl
    rw [lambdaList_cons, if_pos (by simp [Item.isSymbol]), first]
    unfold bindLoop
    rw [if_neg nofun, if_neg (by simp)]
    dsimp only
    rw [ih]
    rfl
  | rest name parts =>
    have only : arguments [(.named name, .rest parts)] = parts := by simp [arguments, Bound.values]
    rw [lambdaList_cons, if_pos (by simp [Item.isSymbol]), lambdaList_cons, if_pos (by simp [Item.isSymbol]), only]
    unfold bindLoop
    rw [if_neg nofun, if_pos (Or.inl rfl)]
    rfl

theorem bind_matches {pattern : Pattern} {parts : List Bytes} {scope : List (Symbol × Bound)}
    (held : Matches pattern parts scope) : bind (lambdaList pattern) (arguments scope) = .ok scope := by
  rw [bind, bindLoop_matches held]
  rfl

/-! ### The table -/

section Table
variable {H : Type}

def installed (calls : List (Pattern × H)) : List (Pattern × H) := calls.foldl installRoute []

theorem installed_concat (calls : List (Pattern × H)) (call : Pattern × H) :
    installed (calls ++ [call]) = replaceRoute call.1 call.2 (installed calls) := by
  rw [installed, foldl_append]
  rfl

theorem replaceRoute_patterns (pattern : Pattern) (handler : H) (routes : List (Pattern × H)) :
    (replaceRoute pattern handler routes).map Prod.fst =
      if pattern ∈ routes.map Prod.fst then routes.map Prod.fst else routes.map Prod.fst ++ [pattern] := by
  induction routes with
  | nil => rfl
  | cons route routes ih =>
    rw [replaceRoute]
    by_cases same : route.1 = pattern
    · simp [same]
    · have other : pattern ≠ route.1 := Ne.symm same
      rw [if_neg same, map_cons, ih, map_cons]
      simp only [mem_cons, other, false_or]
      split
      · rfl
      · rfl

variable {routes : List (Pattern × H)} {route : Pattern × H} {allowed : List Bytes}

theorem replaceRoute_mem {pattern : Pattern} {handler : H}
    (nodup : (routes.map Prod.fst).Nodup) (held : route ∈ replaceRoute pattern handler routes) :
    route = (pattern, handler) ∨ (route ∈ routes ∧ route.1 ≠ pattern) := by
  induction routes with
  | nil => exact Or.inl (mem_singleton.mp held)
  | cons first routes ih =>
    rw [map_cons, nodup_cons] at nodup
    rw [replaceRoute] at held
    split at held
    · rename_i same
      rcases mem_cons.mp held with rfl | later
      · exact Or.inl rfl
      · refine Or.inr ⟨mem_cons_of_mem _ later, fun again => nodup.1 ?_⟩
        rw [same, ← again]
        exact mem_map_of_mem later
    · rename_i other
      rcases mem_cons.mp held with rfl | later
      · exact Or.inr ⟨mem_cons_self, other⟩
      · rcases ih nodup.2 later with same | ⟨inside, apart⟩
        · exact Or.inl same
        · exact Or.inr ⟨mem_cons_of_mem _ inside, apart⟩

def firsts (patterns : List Pattern) : List Pattern := patterns.reverse.dedup.reverse

theorem firsts_nodup (patterns : List Pattern) : (firsts patterns).Nodup :=
  nodup_reverse.mpr (nodup_dedup _)

theorem mem_firsts (patterns : List Pattern) (pattern : Pattern) : pattern ∈ firsts patterns ↔ pattern ∈ patterns := by
  rw [firsts, mem_reverse, mem_dedup, mem_reverse]

theorem firsts_concat (patterns : List Pattern) (pattern : Pattern) : firsts (patterns ++ [pattern]) =
    if pattern ∈ firsts patterns then firsts patterns else firsts patterns ++ [pattern] := by
  by_cases held : pattern ∈ patterns
  · rw [if_pos ((mem_firsts _ _).mpr held), firsts, reverse_append, reverse_singleton, singleton_append,
      dedup_cons_of_mem (mem_reverse.mpr held)]
    rfl
  · rw [if_neg (fun among => held ((mem_firsts _ _).mp among)), firsts, reverse_append, reverse_singleton,
      singleton_append, dedup_cons_of_notMem (fun among => held (mem_reverse.mp among)), reverse_cons]
    rfl

theorem installed_patterns (calls : List (Pattern × H)) : (installed calls).map Prod.fst = firsts (calls.map Prod.fst) := by
  induction calls using List.reverseRecOn with
  | nil => rfl
  | append_singleton calls call ih =>
    rw [installed_concat, replaceRoute_patterns, ih, map_append, map_singleton, firsts_concat]

theorem installed_nodup (calls : List (Pattern × H)) : ((installed calls).map Prod.fst).Nodup := by
  rw [installed_patterns]
  exact firsts_nodup _

theorem installed_latest (calls : List (Pattern × H)) : ∀ route ∈ installed calls,
    ∃ before after, calls = before ++ route :: after ∧ ∀ later ∈ after, later.1 ≠ route.1 := by
  induction calls using List.reverseRecOn with
  | nil => nofun
  | append_singleton calls call ih =>
    intro route held
    rw [installed_concat] at held
    rcases replaceRoute_mem (installed_nodup calls) held with rfl | ⟨inside, other⟩
    · exact ⟨calls, [], rfl, nofun⟩
    · obtain ⟨before, after, same, last⟩ := ih route inside
      refine ⟨before, after ++ [call], by rw [same, append_assoc]; rfl, ?_⟩
      intro later among
      rcases mem_append.mp among with earlier | final
      · exact last later earlier
      · rw [mem_singleton.mp final]
        exact other.symm

theorem installed_formed {calls : List (Pattern × H)} (formed : ∀ call ∈ calls, WellFormed call.1) :
    ∀ route ∈ installed calls, WellFormed route.1 := by
  intro route held
  obtain ⟨before, after, same, -⟩ := installed_latest calls route held
  refine formed route ?_
  rw [same]
  exact mem_append_right _ mem_cons_self

/-! ### The request -/

theorem findRoute_first (formed : ∀ route ∈ routes, WellFormed route.1) {method : Bytes} {segments args : List Bytes}
    (found : findRoute routes method segments = some (route, args)) :
    ∃ scope, First routes (method :: segments) route scope ∧ bind (lambdaList route.1) args = .ok scope := by
  obtain ⟨before, after, split, earlier, last⟩ := findResult_some found
  have inside : route ∈ routes := by
    rw [split]
    exact mem_append_right _ mem_cons_self
  obtain ⟨scope, held, rfl⟩ := matches_matchRoute (formed route inside).path last
  refine ⟨scope, .found before after split ?_ held, bind_matches held⟩
  intro other among
  refine matchRoute_none (formed other ?_).path (earlier other among)
  rw [split]
  exact mem_append_left _ among

theorem findRoute_none (formed : ∀ route ∈ routes, WellFormed route.1) {method : Bytes} {segments : List Bytes}
    (found : findRoute routes method segments = none) : ∀ route ∈ routes, ¬ Fits route.1 (method :: segments) := by
  intro route inside
  exact matchRoute_none (formed route inside).path (findResult_none found route inside)

theorem serves_concat (routes : List (Pattern × H)) (route : Pattern × H) (segments : List Bytes) (method : Bytes) :
    Serves (routes ++ [route]) segments method ↔
      Serves routes segments method ∨ ∃ path, route.1 = .string method :: path ∧ Fits path segments := by
  unfold Serves
  constructor
  · rintro ⟨other, among, served⟩
    rcases mem_append.mp among with earlier | last
    · exact Or.inl ⟨other, earlier, served⟩
    · rw [mem_singleton.mp last] at served
      exact Or.inr served
  · rintro (⟨other, earlier, served⟩ | served)
    · exact ⟨other, mem_append_left _ earlier, served⟩
    · exact ⟨route, mem_append_right _ (mem_singleton_self _), served⟩

theorem Allows.same {segments : List Bytes} (allows : Allows routes segments allowed)
    (known : ∀ method path, route.1 = .string method :: path → Fits path segments → method ∈ allowed) :
    Allows (routes ++ [route]) segments allowed := by
  refine ⟨allows.nodup, fun method => ?_⟩
  rw [serves_concat, serves_concat, allows.mem]
  constructor
  · rintro (served | ⟨head, served⟩)
    · exact Or.inl (Or.inl served)
    · exact Or.inr ⟨head, Or.inl served⟩
  · rintro ((served | ⟨path, same, fits⟩) | ⟨head, served | ⟨path, same, fits⟩⟩)
    · exact Or.inl served
    · exact (allows.mem method).mp (known method path same fits)
    · exact Or.inr ⟨head, served⟩
    · rcases (allows.mem _).mp (known _ path same fits) with served | ⟨-, served⟩
      · exact Or.inr ⟨head, served⟩
      · exact Or.inr ⟨head, served⟩

theorem Allows.more {segments : List Bytes} (allows : Allows routes segments allowed)
    {text : Bytes} {path : Pattern} {handler : H} (fresh : text ∉ allowed) (fits : Fits path segments) :
    Allows (routes ++ [(.string text :: path, handler)]) segments
      (allowed ++ if text = ascii "GET" && !includes allowed (ascii "HEAD") then [text, ascii "HEAD"] else [text]) := by
  have served : ∀ method, (∃ path', Item.string text :: path = .string method :: path' ∧ Fits path' segments) ↔
      method = text := by
    intro method
    constructor
    · rintro ⟨path', same, -⟩
      cases same
      rfl
    · rintro rfl
      exact ⟨path, rfl, fits⟩
  have apart : ascii "GET" ≠ ascii "HEAD" := by decide
  have head : (!includes allowed (ascii "HEAD")) = true ↔ ascii "HEAD" ∉ allowed := by
    rw [Bool.not_eq_true', ← Bool.not_eq_true, includes_iff]
  have mem := allows.mem
  by_cases both : text = ascii "GET" ∧ ascii "HEAD" ∉ allowed
  · obtain ⟨rfl, without⟩ := both
    rw [if_pos (by rw [decide_eq_true rfl, Bool.true_and]; exact head.mpr without)]
    refine ⟨nodup_append.mpr ⟨allows.nodup, by simp [apart], ?_⟩, fun method => ?_⟩
    · rintro first held second among rfl
      rcases mem_cons.mp among with rfl | among
      · exact fresh held
      · rw [mem_singleton.mp among] at held
        exact without held
    · rw [mem_append, serves_concat, serves_concat, served, served, mem]
      grind
  · rw [if_neg (by rw [Bool.and_eq_true, head, decide_eq_true_iff]; exact both)]
    refine ⟨nodup_append.mpr ⟨allows.nodup, nodup_singleton _, ?_⟩, fun method => ?_⟩
    · rintro first held second among rfl
      rw [mem_singleton.mp among] at held
      exact fresh held
    · have known : text = ascii "GET" → ascii "HEAD" ∈ allowed := fun get => by_contra fun without => both ⟨get, without⟩
      rw [mem] at known
      rw [mem_append, serves_concat, serves_concat, served, served, mem, mem_singleton]
      grind

theorem allowMethod_allows {segments : List Bytes} (allows : Allows routes segments allowed)
    (formed : WellFormed route.1) : Allows (routes ++ [route]) segments (allowMethod segments allowed route) := by
  obtain ⟨pattern, handler⟩ := route
  obtain ⟨plain, path⟩ := formed
  rename_i method pattern
  cases method with
  | symbol symbol => exact allows.same (by rintro method path ⟨⟩)
  | string text =>
    have unfolded : allowMethod segments allowed (.string text :: pattern, handler) =
        if !includes allowed text && (matchRoute pattern segments []).isSome then
          allowed ++ (if text = ascii "GET" && !includes allowed (ascii "HEAD") then [text, ascii "HEAD"] else [text])
        else allowed := rfl
    rw [unfolded]
    by_cases fits : Fits pattern segments
    · rw [(matchRoute_isSome path segments).mpr fits, Bool.and_true]
      by_cases known : text ∈ allowed
      · rw [if_neg (by rw [(includes_iff _ _).mpr known]; nofun)]
        refine allows.same ?_
        rintro method path' ⟨⟩ -
        exact known
      · rw [if_pos (by rw [Bool.not_eq_true', ← Bool.not_eq_true, includes_iff]; exact known)]
        exact allows.more known fits
    · rw [if_neg (by rw [Bool.and_eq_true, matchRoute_isSome path]; exact fun both => fits both.2)]
      refine allows.same ?_
      rintro method path' ⟨⟩ held
      exact absurd held fits

theorem allowedMethods_allows (formed : ∀ route ∈ routes, WellFormed route.1)
    (segments : List Bytes) : Allows routes segments (allowedMethods routes segments) := by
  induction routes using List.reverseRecOn with
  | nil => exact ⟨nodup_nil, fun method => by simp [Serves, allowedMethods]⟩
  | append_singleton routes route ih =>
    have last : allowedMethods (routes ++ [route]) segments =
        allowMethod segments (allowedMethods routes segments) route := by
      rw [allowedMethods, foldl_append]
      rfl
    rw [last]
    refine allowMethod_allows (ih fun other among => formed other (mem_append_left _ among)) ?_
    exact formed route (mem_append_right _ (mem_singleton_self _))

theorem routeRequest_answers (formed : ∀ route ∈ routes, WellFormed route.1)
    (method : Bytes) (segments : List Bytes) : Answers routes method segments (routeRequest routes method segments) := by
  have allows := allowedMethods_allows formed segments
  have unfound : Unrouted routes method segments →
      Answers routes method segments (if allowedMethods routes segments = [] then .respond 404 [] (ascii "Not Found\n")
        else .respond 405 [(ascii "Allow", joinStrings (ascii ", ") (allowedMethods routes segments))]
          (ascii "Method Not Allowed\n")) := by
    intro unrouted
    split
    · rename_i empty
      refine .missing unrouted fun other served => ?_
      have among := (allows.mem other).mpr (Or.inl served)
      rw [empty] at among
      cases among
    · rename_i some
      exact .refused unrouted allows some
  unfold routeRequest
  cases own : findRoute routes method segments with
  | some found =>
    obtain ⟨route, args⟩ := found
    obtain ⟨scope, first, applied⟩ := findRoute_first formed own
    exact .handled first applied
  | none =>
    have others := findRoute_none formed own
    by_cases head : method = ascii "HEAD"
    · dsimp only
      rw [if_pos head]
      cases get : findRoute routes (ascii "GET") segments with
      | some found =>
        obtain ⟨route, args⟩ := found
        obtain ⟨scope, first, applied⟩ := findRoute_first formed get
        exact .fallback head others first applied
      | none => exact unfound ⟨others, fun _ => findRoute_none formed get⟩
    · dsimp only
      rw [if_neg head]
      exact unfound ⟨others, fun same => absurd same head⟩

end Table

/-! ### Runs of definitions and a request -/

theorem routing {H : Type} (calls : List (Pattern × H)) (formed : ∀ call ∈ calls, WellFormed call.1) (method : Bytes)
    (segments : List Bytes) : ((installed calls).map Prod.fst).Nodup ∧ (installed calls).map Prod.fst = firsts
    (calls.map Prod.fst) ∧
    (∀ route ∈ installed calls, ∃ before after, calls = before ++ route :: after ∧ ∀ later ∈ after, later.1 ≠ route.1) ∧
    Answers (installed calls) method segments (routeRequest (installed calls) method segments) :=
  ⟨installed_nodup calls, installed_patterns calls, installed_latest calls,
    routeRequest_answers (installed_formed formed) method segments⟩

/-- A request by HEAD for what is there by GET alone, its pattern given twice. -/
theorem routing_head : routeRequest (installed [([.string (ascii "GET"), .symbol (.named "x")], 1),
        ([.string (ascii "GET"), .symbol (.named "x")], 2)]) (ascii "HEAD") [ascii "a"] = .apply 2 [ascii "a"] ∧
      Answers (installed [([.string (ascii "GET"), .symbol (.named "x")], 1),
        ([.string (ascii "GET"), .symbol (.named "x")], 2)]) (ascii "HEAD") [ascii "a"] (.apply 2 [ascii "a"]) := by
  have formed : WellFormed [.string (ascii "GET"), .symbol (.named "x")] := .pattern (.string _) (.cons (.name _) .nil)
  have run := (routing [([.string (ascii "GET"), .symbol (.named "x")], 1),
    ([.string (ascii "GET"), .symbol (.named "x")], 2)] (by simp [formed]) (ascii "HEAD") [ascii "a"]).2.2.2
  have answer : routeRequest (installed [([.string (ascii "GET"), .symbol (.named "x")], 1),
      ([.string (ascii "GET"), .symbol (.named "x")], 2)]) (ascii "HEAD") [ascii "a"] = .apply 2 [ascii "a"] := by decide
  rw [answer] at run
  exact ⟨answer, run⟩

/-- A marker of lambda lists is a symbol too, and takes a segment in the match, but no argument. -/
theorem optional_takes :
    routeRequest (installed [([.string (ascii "GET"), .symbol .ampOptional, .symbol (.named "x")], 1)]) (ascii "GET")
        [ascii "a", ascii "b"] = .apply 1 [ascii "a", ascii "b"] ∧
      bind (lambdaList [.string (ascii "GET"), .symbol .ampOptional, .symbol (.named "x")]) [ascii "a", ascii "b"] =
        .error .invalidArgumentCount := by
  constructor
  · decide
  · rfl

end Nxt.Host
