import Nxt.Http.Events

/- A stream of events as both parsers see it: what each makes of a block of lines, and exactly when
   they make the same events of a whole stream. -/
namespace Nxt.Http
open Nxt.Lib List
open Nxt.Mt (Feed)

def ending (crlf : Bool) : Bytes := if crlf then [0x0d, 0x0a] else [0x0a]

structure Line where
  content : Bytes
  crlf : Bool
  filled : content ≠ []
  plain : 0x0a ∉ content ∧ 0x0d ∉ content

def Line.bytes (l : Line) : Bytes := l.content ++ ending l.crlf

structure Block where
  fields : List Line
  crlf : Bool

def Block.bytes (b : Block) : Bytes := b.fields.flatMap Line.bytes ++ ending b.crlf

def render (blocks : List Block) : Bytes := blocks.flatMap Block.bytes

def Block.FitsIn (capacity : Nat) (b : Block) : Prop :=
  (∀ l ∈ b.fields, l.bytes.length ≤ capacity) ∧ (ending b.crlf).length ≤ capacity

instance (capacity : Nat) (b : Block) : Decidable (b.FitsIn capacity) :=
  inferInstanceAs (Decidable (_ ∧ _))

def valueOf (name : String) (text : Bytes) : Option Bytes :=
  if text.head? = some 0x3a then none
  else if (fieldAndValue text).1 = octets name then some (fieldAndValue text).2 else none

def Line.type (l : Line) : Option Bytes :=
  (valueOf "event" l.content).map fun value => if value = [] then message else value

def Line.data (l : Line) : Option Bytes := (valueOf "data" l.content).map (· ++ [0x0a])

def Line.retry (l : Line) : Option Int := (valueOf "retry" l.content).bind wholeInt

def lastSet {α β : Type} (f : α → Option β) : List α → Option β
  | [] => none
  | l :: rest => (lastSet f rest).or (f l)

def Block.type (b : Block) : Option Bytes := lastSet Line.type b.fields

def Block.retry (b : Block) : Option Int := lastSet Line.retry b.fields

def Block.data (b : Block) : Bytes := b.fields.flatMap fun l => l.data.getD []

def ServerSentEvent.shown (e : ServerSentEvent) : Bytes × Bytes × Option Int :=
  (e.type, e.data, e.retryMs)

/-- No block with data is left a type other than `message`, or a delay, by blocks without data
    before it: it sets them itself, or they were not set or set back. -/
def Contained (type : Bytes) (retry : Option Int) : List Block → Prop
  | [] => True
  | b :: rest =>
      if b.data = [] then Contained (b.type.getD type) (b.retry.or retry) rest
      else (b.type = none → type = message) ∧ (b.retry = none → retry = none) ∧
        Contained message none rest

/-! ### Lines of a feed -/

section Feeds
variable {f : Feed} {d : UInt8}

theorem takeWhile_front {front : Bytes} (back : Bytes) (absent : d ∉ front) :
    (front ++ d :: back).takeWhile (· ≠ d) = front := by
  induction front with
  | nil => simp
  | cons x xs ih =>
    rw [mem_cons, not_or] at absent
    have other : x ≠ d := fun same => absent.1 same.symm
    simp only [cons_append, takeWhile_cons, other, ne_eq, not_false_eq_true, decide_true, if_true]
    exact congrArg (x :: ·) (ih absent.2)

theorem untilFrom_found (capacity : Nat) (buffered : Bytes) (pieces : List Bytes) {front back : Bytes}
    (same : buffered ++ pieces.flatten = front ++ d :: back) (absent : d ∉ front) (fits : front.length < capacity)
    (sound : buffered.length ≤ capacity) : (untilFrom d capacity buffered pieces).1 = .ok front ∧
    (untilFrom d capacity buffered pieces).2.1.length ≤ capacity := by
  fun_induction untilFrom d capacity buffered pieces with
  | case1 buffered pieces found =>
    have cut := cut_at found
    have whole : buffered.takeWhile (· ≠ d) ++
        d :: ((buffered.dropWhile (· ≠ d)).drop 1 ++ pieces.flatten) = front ++ d :: back := by
      rw [← same]
      conv_rhs => rw [cut]
      simp
    have lacks : d ∉ buffered.takeWhile (· ≠ d) := by
      intro held
      have differs := mem_takeWhile_imp held
      simp at differs
    refine ⟨?_, ?_⟩
    · have left := takeWhile_front ((buffered.dropWhile (· ≠ d)).drop 1 ++ pieces.flatten) lacks
      rw [whole, takeWhile_front back absent] at left
      rw [← left]
    · have shorter := length_dropWhile_le (· ≠ d) buffered
      rw [length_drop]
      omega
  | case2 buffered pieces missing full =>
    have held : d ∈ buffered := by
      have early : front ++ [d] <+: buffered ++ pieces.flatten := ⟨back, by rw [same]; simp⟩
      have size : (front ++ [d]).length ≤ buffered.length := by
        rw [length_append, length_singleton]
        omega
      have front_in : front ++ [d] <+: buffered :=
        prefix_of_prefix_length_le early (prefix_append _ _) size
      exact front_in.subset (by simp)
    exact absurd held missing
  | case3 buffered missing room =>
    rw [flatten_nil, append_nil] at same
    exact absurd (by rw [same]; simp) missing
  | case4 buffered missing room piece pieces room' ih =>
    apply ih
    · rw [← same, append_assoc, flatten_cons]
      split
      · rename_i whole
        rw [take_of_length_le whole]
      · rw [flatten_cons, ← append_assoc (piece.take room'), take_append_drop]
    · rw [length_append, length_take]
      omega

theorem untilFrom_end (capacity : Nat) (buffered : Bytes) (pieces : List Bytes)
    (none_left : buffered ++ pieces.flatten = []) (some_room : 0 < capacity) :
    (untilFrom d capacity buffered pieces).1 = .error .endOfStream := by
  fun_induction untilFrom d capacity buffered pieces with
  | case1 buffered pieces found =>
    rw [(append_eq_nil_iff.mp none_left).1] at found
    cases found
  | case2 buffered pieces missing full =>
    rw [(append_eq_nil_iff.mp none_left).1] at full
    exact absurd full (by simp; omega)
  | case3 => rfl
  | case4 buffered missing room piece pieces room' ih =>
    apply ih
    obtain ⟨rfl, rest⟩ := append_eq_nil_iff.mp none_left
    rw [flatten_cons] at rest
    obtain ⟨rfl, rest⟩ := append_eq_nil_iff.mp rest
    simpa using rest

structure At (capacity : Nat) (rest : Bytes) (f : Feed) : Prop where
  capacity : f.capacity = capacity
  rest : f.rest = rest
  sound : f.Sound

theorem takeUntil_line {capacity : Nat} {content rest : Bytes} {crlf : Bool}
    (plain : 0x0a ∉ content ∧ 0x0d ∉ content) (fits : (content ++ ending crlf).length ≤ capacity)
    (here : At capacity (content ++ ending crlf ++ rest) f) :
    ∃ raw f', takeUntil 0x0a f = (.ok raw, f') ∧ trimmed raw = content ∧ At capacity rest f' := by
  have split : ∃ raw, content ++ ending crlf = raw ++ [0x0a] ∧ trimmed raw = content ∧ 0x0a ∉ raw := by
    cases crlf with
    | true =>
      refine ⟨content ++ [0x0d], by simp [ending], by simp [trimmed], ?_⟩
      simp [plain.1]
    | false =>
      refine ⟨content, rfl, ?_, plain.1⟩
      rw [trimmed, if_neg]
      intro last
      exact plain.2 (mem_of_getLast? last)
  obtain ⟨raw, line, trim, absent⟩ := split
  rw [line, length_append, length_singleton] at fits
  have whole : f.buffered ++ f.pieces.flatten = raw ++ 0x0a :: rest := by
    have whole := here.rest
    rw [line] at whole
    simpa [Feed.rest] using whole
  obtain ⟨found, room⟩ := untilFrom_found f.capacity f.buffered f.pieces whole absent
    (by rw [here.capacity]; omega) here.sound
  have taken : takeUntil 0x0a f = (.ok raw, (takeUntil 0x0a f).2) := by
    rw [← found]
    rfl
  refine ⟨raw, (takeUntil 0x0a f).2, taken, trim, here.capacity, ?_, room⟩
  have rest' := takeUntil_ok taken
  rw [Feed.rest, whole] at rest'
  simpa using rest'.symm

theorem takeUntil_end {capacity : Nat} (some_room : 0 < capacity) (here : At capacity [] f) :
    ∃ f', takeUntil 0x0a f = (.error .endOfStream, f') ∧ At capacity [] f' := by
  have none_left : f.buffered ++ f.pieces.flatten = [] := here.rest
  have found := @untilFrom_end 0x0a f.capacity f.buffered f.pieces none_left
    (by rw [here.capacity]; exact some_room)
  have failed : takeUntil 0x0a f = (.error .endOfStream, (takeUntil 0x0a f).2) := by
    rw [← found]
    rfl
  have rest := takeUntil_error failed
  rw [here.rest] at rest
  refine ⟨_, failed, here.capacity, rest, ?_⟩
  rw [Feed.rest, append_eq_nil_iff] at rest
  rw [Feed.Sound, rest.1]
  exact Nat.zero_le _

end Feeds

/-! ### What a field does -/

theorem names_apart : octets "data" ≠ octets "event" ∧ octets "data" ≠ octets "retry" ∧
    octets "event" ≠ octets "retry" ∧ octets "data" ≠ octets "id" ∧ octets "event" ≠ octets "id" ∧
    octets "id" ≠ octets "retry" := by decide

theorem pulled_field (s : Pulled) (l : Line) : (s.field l.content).event.type = l.type.getD s.event.type ∧
      (s.field l.content).event.data = s.event.data ++ l.data.getD [] ∧
      (s.field l.content).event.retryMs = l.retry.or s.event.retryMs ∧
      (s.field l.content).haveData = (s.haveData || l.data.isSome) := by
  obtain ⟨_, _, _, _, _, _⟩ := names_apart
  unfold Pulled.field Line.type Line.data Line.retry valueOf
  split
  · simp
  · dsimp only
    generalize fieldAndValue l.content = pair
    obtain ⟨field, value⟩ := pair
    dsimp only
    split
    · rename_i same
      simp_all
    · split
      · rename_i same
        simp_all
      · split
        · rename_i same
          split <;> simp_all
        · split
          · rename_i same
            cases number : wholeInt value <;> simp_all
          · simp_all

theorem pushed_field (p : Parser) (l : Line) (gathered : p.line = l.content) : p.processLine.2 = [] ∧
    p.processLine.1.line = l.content ∧ p.processLine.1.previousWasCr = p.previousWasCr ∧
    p.processLine.1.pending.type = l.type.getD p.pending.type ∧
    p.processLine.1.pending.data = p.pending.data ++ l.data.getD [] ∧
    p.processLine.1.pending.retryMs = l.retry.or p.pending.retryMs := by
  obtain ⟨_, _, _, _, _, _⟩ := names_apart
  unfold Parser.processLine Line.type Line.data Line.retry valueOf
  rw [gathered, if_neg l.filled]
  split
  · simp [gathered]
  · dsimp only
    generalize fieldAndValue l.content = pair
    obtain ⟨field, value⟩ := pair
    dsimp only
    split
    · rename_i same
      simp_all
    · split
      · rename_i same
        simp_all
      · split
        · rename_i same
          split <;> simp_all
        · split
          · rename_i same
            cases number : wholeInt value <;> simp_all
          · simp_all

theorem data_ends (l : Line) : l.data.getD [] = [] ↔ l.data.isSome = false := by
  unfold Line.data
  cases valueOf "data" l.content <;> simp

/-! ### Blocks, pulled -/

def Pulled.fields (s : Pulled) (fields : List Line) : Pulled :=
  fields.foldl (fun s l => s.field l.content) s

theorem pulled_fields (s : Pulled) (fields : List Line) :
    (s.fields fields).event.type = (lastSet Line.type fields).getD s.event.type ∧
      (s.fields fields).event.data = s.event.data ++ fields.flatMap (fun l => l.data.getD []) ∧
      (s.fields fields).event.retryMs = (lastSet Line.retry fields).or s.event.retryMs ∧
      ((s.fields fields).haveData = false ↔ s.haveData = false ∧ fields.flatMap (fun l => l.data.getD []) = []) := by
  induction fields generalizing s with
  | nil => simp [Pulled.fields, lastSet]
  | cons l rest ih =>
    obtain ⟨type, data, retry, held⟩ := pulled_field s l
    obtain ⟨type', data', retry', held'⟩ := ih (s.field l.content)
    change (Pulled.fields (s.field l.content) rest).event.type = _ ∧ _
    refine ⟨?_, ?_, ?_, ?_⟩
    · rw [type', type, lastSet]
      cases lastSet Line.type rest <;> simp
    · change (Pulled.fields (s.field l.content) rest).event.data = _
      rw [data', data, flatMap_cons, append_assoc]
    · change (Pulled.fields (s.field l.content) rest).event.retryMs = _
      rw [retry', retry, lastSet, Option.or_assoc]
    · change (Pulled.fields (s.field l.content) rest).haveData = false ↔ _
      rw [held', held, flatMap_cons, append_eq_nil_iff, data_ends, Bool.or_eq_false_iff, and_assoc]

theorem parse_line {s : Pulled} {f f' : Feed} {raw : Bytes}
    (taken : takeUntil 0x0a f = (.ok raw, f')) : parseSseEvent s f =
      if trimmed raw = [] then
        if s.haveData then (.ok (some s.finished), f')
        else parseSseEvent { s with haveFields := false } f'
      else parseSseEvent (s.field (trimmed raw)) f' := by
  rw [parseSseEvent]
  split
  · rename_i failed
    rw [taken] at failed
    cases failed
  · rename_i failed
    rw [taken] at failed
    cases failed
  · rename_i found
    rw [taken] at found
    cases found
    rfl

theorem parse_end {s : Pulled} {f f' : Feed} (failed : takeUntil 0x0a f = (.error .endOfStream, f'))
    (clean : s.haveData = false ∧ s.haveFields = false) : parseSseEvent s f = (.ok none, f') := by
  rw [parseSseEvent]
  split
  · rename_i found
    rw [failed] at found
    cases found
    simp [clean]
  · rename_i found
    rw [failed] at found
    cases found
  · rename_i found
    rw [failed] at found
    cases found

/-- A block is taken whole: its event is given if it has data, and otherwise reading goes on. -/
theorem parse_block {capacity : Nat} (b : Block) (rest : Bytes) (s : Pulled) (f : Feed)
    (fits : b.FitsIn capacity) (here : At capacity (b.bytes ++ rest) f) :
    ∃ f', At capacity rest f' ∧ parseSseEvent s f =
      if (s.fields b.fields).haveData then (.ok (some (s.fields b.fields).finished), f')
      else parseSseEvent { s.fields b.fields with haveFields := false } f' := by
  obtain ⟨fields, crlf⟩ := b
  obtain ⟨lines, blank⟩ := fits
  unfold Block.bytes at here
  induction fields generalizing s f with
  | nil =>
    obtain ⟨raw, f', taken, trim, left⟩ := @takeUntil_line f capacity [] rest crlf (by simp) blank here
    refine ⟨f', left, ?_⟩
    rw [parse_line taken, if_pos trim]
    rfl
  | cons l fields ih =>
    have front : At capacity (l.content ++ ending l.crlf ++
        (fields.flatMap Line.bytes ++ ending crlf ++ rest)) f := by
      rw [flatMap_cons, Line.bytes] at here
      simpa only [append_assoc] using here
    obtain ⟨raw, f', taken, trim, left⟩ := takeUntil_line l.plain (lines l mem_cons_self) front
    obtain ⟨f'', after, parsed⟩ := ih (s.field l.content) f' left
      (fun l held => lines l (mem_cons_of_mem _ held)) blank
    refine ⟨f'', after, ?_⟩
    rw [parse_line taken, trim, if_neg l.filled, parsed]
    rfl

def pulls (s : Pulled) : List Block → List ServerSentEvent
  | [] => []
  | b :: rest =>
      let s := s.fields b.fields
      if s.haveData then s.finished :: pulls {} rest
      else pulls { s with haveFields := false } rest

def events (first : Except SseError (Option ServerSentEvent) × Feed) : Except SseError (List ServerSentEvent) :=
  match first with
  | (.error e, _) => .error e
  | (.ok none, _) => .ok []
  | (.ok (some event), f') => (sseEvents f').map (event :: ·)

theorem sseEvents_eq (f : Feed) : sseEvents f = events (parseSseEvent {} f) := by
  rw [sseEvents]
  split
  · rename_i parsed
    rw [parsed]
    rfl
  · rename_i parsed
    rw [parsed]
    rfl
  · rename_i parsed
    rw [parsed]
    rfl

/-- Pulling events until there are none gives those of the blocks, whatever the segments. -/
theorem events_pulls {capacity : Nat} (some_room : 0 < capacity) (blocks : List Block)
    (fits : ∀ b ∈ blocks, b.FitsIn capacity) (s : Pulled) (clean : s.haveData = false ∧ s.haveFields = false) (f : Feed)
    (here : At capacity (render blocks) f) : events (parseSseEvent s f) = .ok (pulls s blocks) := by
  induction blocks generalizing s f with
  | nil =>
    obtain ⟨f', failed, -⟩ := takeUntil_end some_room here
    rw [parse_end failed clean]
    rfl
  | cons b rest ih =>
    have later := fun b held => fits b (mem_cons_of_mem _ held)
    obtain ⟨f', left, parsed⟩ :=
      parse_block b (render rest) s f (fits b mem_cons_self) here
    rw [parsed, pulls]
    dsimp only
    split
    · change (sseEvents f').map _ = _
      rw [sseEvents_eq, ih later {} ⟨rfl, rfl⟩ f' left]
      rfl
    · rename_i no_data
      exact ih later _ ⟨by simpa using no_data, rfl⟩ f' left

/-! ### Blocks, pushed -/

namespace Parser
variable {p : Parser}

theorem feed_cons (p : Parser) (c : UInt8) (body : Bytes) : p.feed (c :: body) =
    (((p.character c).1.feed body).1, (p.character c).2 ++ ((p.character c).1.feed body).2) := rfl

theorem feed_append (p : Parser) (xs ys : Bytes) : p.feed (xs ++ ys) =
    (((p.feed xs).1.feed ys).1, (p.feed xs).2 ++ ((p.feed xs).1.feed ys).2) := by
  induction xs generalizing p with
  | nil => rfl
  | cons c xs ih =>
    rw [cons_append, feed_cons, ih, feed_cons]
    simp only [append_assoc]

theorem feed_plain (content : Bytes) (plain : 0x0a ∉ content ∧ 0x0d ∉ content) :
    p.feed content = ({ p with
      line := p.line ++ content
      previousWasCr := if content = [] then p.previousWasCr else false }, []) := by
  induction content generalizing p with
  | nil => simp [feed]
  | cons c content ih =>
    simp only [mem_cons, not_or] at plain
    have char : p.character c = ({ p with previousWasCr := false, line := p.line ++ [c] }, []) := by
      rw [character, if_neg (Ne.symm plain.2.1), if_neg (Ne.symm plain.1.1)]
    rw [feed, char]
    dsimp only
    rw [ih ⟨plain.1.2, plain.2.2⟩]
    simp

def Ready (p : Parser) : Prop := p.line = [] ∧ p.previousWasCr = false

theorem processLine_cr (p : Parser) : p.processLine.1.previousWasCr = p.previousWasCr := by
  unfold processLine
  split
  · rfl
  · split
    · rfl
    · dsimp only
      generalize fieldAndValue p.line = pair
      obtain ⟨field, value⟩ := pair
      dsimp only
      split
      · rfl
      · split
        · rfl
        · split
          · split <;> rfl
          · split
            · cases wholeInt value <;> rfl
            · rfl

theorem feed_ending (p : Parser) (cr : p.previousWasCr = false) (crlf : Bool) : p.feed (ending crlf) = p.endLine := by
  have still : p.endLine.1.previousWasCr = false := (processLine_cr p).trans cr
  cases crlf with
  | false => simp [ending, feed, character, cr]
  | true =>
    have same : ({ p.endLine.1 with previousWasCr := false } : Parser) = p.endLine.1 := by
      rw [← still]
    simp [ending, feed, character, same]

theorem feed_line (ready : p.Ready) {content : Bytes} (plain : 0x0a ∉ content ∧ 0x0d ∉ content)
    (crlf : Bool) : p.feed (content ++ ending crlf) = ({ p with line := content }).endLine := by
  obtain ⟨line, cr⟩ := ready
  have gathered : p.feed content = ({ p with line := content }, []) := by
    rw [feed_plain content plain, line, cr]
    simp
  have ended := feed_ending { p with line := content } cr crlf
  generalize ({ p with line := content } : Parser) = q at gathered ended ⊢
  rw [feed_append, gathered]
  dsimp only
  rw [ended]
  rfl

theorem feed_fields (fields : List Line) (ready : p.Ready) :
    (p.feed (fields.flatMap Line.bytes)).2 = [] ∧ (p.feed (fields.flatMap Line.bytes)).1.Ready ∧
      (p.feed (fields.flatMap Line.bytes)).1.pending.type = (lastSet Line.type fields).getD p.pending.type ∧
      (p.feed (fields.flatMap Line.bytes)).1.pending.data = p.pending.data ++ fields.flatMap (fun l => l.data.getD []) ∧
      (p.feed (fields.flatMap Line.bytes)).1.pending.retryMs = (lastSet Line.retry fields).or p.pending.retryMs := by
  induction fields generalizing p with
  | nil => exact ⟨rfl, ready, rfl, (append_nil _).symm, rfl⟩
  | cons l rest ih =>
    obtain ⟨silent, -, cr, type, data, retry⟩ := pushed_field { p with line := l.content } l rfl
    have line : p.feed l.bytes = ({ p with line := l.content } : Parser).endLine :=
      feed_line ready l.plain l.crlf
    have ready' : ({ p with line := l.content } : Parser).endLine.1.Ready := ⟨rfl, cr.trans ready.2⟩
    obtain ⟨silent', ready'', type', data', retry'⟩ := ih ready'
    rw [flatMap_cons, feed_append, line]
    refine ⟨?_, ready'', ?_, ?_, ?_⟩
    · rw [silent', append_nil]
      exact silent
    · dsimp only
      rw [type', lastSet]
      have first : ({ p with line := l.content } : Parser).endLine.1.pending.type =
          l.type.getD p.pending.type := type
      rw [first]
      cases lastSet Line.type rest <;> simp
    · dsimp only
      have first : ({ p with line := l.content } : Parser).endLine.1.pending.data =
          p.pending.data ++ l.data.getD [] := data
      rw [data', first, flatMap_cons, append_assoc]
    · dsimp only
      have first : ({ p with line := l.content } : Parser).endLine.1.pending.retryMs =
          l.retry.or p.pending.retryMs := retry
      rw [retry', first, lastSet, Option.or_assoc]

end Parser

def pushes : List Block → List (Bytes × Bytes × Option Int)
  | [] => []
  | b :: rest =>
      if b.data = [] then pushes rest
      else (b.type.getD message, chomp b.data, b.retry) :: pushes rest

theorem feed_pushes (blocks : List Block) (p : Parser) (ready : p.Ready) (clean : p.pending = {}) :
    (p.feed (render blocks)).2.map ServerSentEvent.shown = pushes blocks := by
  induction blocks generalizing p with
  | nil => rfl
  | cons b rest ih =>
    obtain ⟨silent, ready', type, data, retry⟩ := Parser.feed_fields b.fields ready
    generalize fed : p.feed (b.fields.flatMap Line.bytes) = q at silent ready' type data retry
    have blank : q.1.feed (ending b.crlf) = q.1.endLine := Parser.feed_ending q.1 ready'.2 b.crlf
    have line : q.1.processLine = q.1.dispatch := by
      rw [Parser.processLine, if_pos ready'.1]
    have block : p.feed b.bytes = ({ q.1.dispatch.1 with line := [] }, q.1.dispatch.2) := by
      rw [Block.bytes, Parser.feed_append, fed, blank, silent, Parser.endLine, line]
      rfl
    have after : ({ q.1.dispatch.1 with line := [] } : Parser).Ready := ⟨rfl, ready'.2⟩
    have rest' := ih { q.1.dispatch.1 with line := [] } after rfl
    change ((p.feed (b.bytes ++ render rest)).2.map ServerSentEvent.shown) = _
    rw [Parser.feed_append, block, map_append, rest', pushes]
    rw [clean] at type data retry
    have data : q.1.pending.data = b.data := data
    have type : q.1.pending.type = b.type.getD message := type
    have retry : q.1.pending.retryMs = b.retry := retry.trans Option.or_none
    rw [Parser.dispatch, data]
    dsimp only
    split
    · rfl
    · simp only [map_cons, map_nil, ServerSentEvent.shown, type, retry, cons_append, nil_append]

theorem pulls_pushes_iff (blocks : List Block) (s : Pulled) (no_data : s.haveData = false) (empty : s.event.data = []) :
    (pulls s blocks).map ServerSentEvent.shown = pushes blocks ↔ Contained s.event.type s.event.retryMs blocks := by
  induction blocks generalizing s with
  | nil => simp [pulls, pushes, Contained]
  | cons b rest ih =>
    obtain ⟨type, data, retry, held⟩ := pulled_fields s b.fields
    have data : (s.fields b.fields).event.data = b.data := by
      rw [data, empty]
      rfl
    have held : (s.fields b.fields).haveData = false ↔ b.data = [] := by
      rw [held, no_data]
      exact ⟨And.right, fun dataless => ⟨rfl, dataless⟩⟩
    rw [pulls, pushes, Contained]
    by_cases dataless : b.data = []
    · have none_held := held.mpr dataless
      have later := ih { event := (s.fields b.fields).event } rfl (data.trans dataless)
      rw [if_pos dataless, if_pos dataless, none_held, if_neg (by decide), later]
      dsimp only
      rw [type, retry]
      rfl
    · have some_held : (s.fields b.fields).haveData = true := by
        rw [← Bool.not_eq_false]
        exact fun none_held => dataless (held.mp none_held)
      rw [if_neg dataless, if_neg dataless, some_held, if_pos rfl, map_cons, List.cons.injEq, ih {} rfl rfl]
      have shown : (s.fields b.fields).finished.shown =
          (b.type.getD s.event.type, chomp b.data, b.retry.or s.event.retryMs) := by
        rw [ServerSentEvent.shown, Pulled.finished]
        dsimp only
        rw [type, data, retry]
        rfl
      rw [shown, Prod.mk.injEq, Prod.mk.injEq]
      have same_type : b.type.getD s.event.type = b.type.getD message ↔
          (b.type = none → s.event.type = message) := by
        cases b.type <;> simp
      have same_retry : b.retry.or s.event.retryMs = b.retry ↔
          (b.retry = none → s.event.retryMs = none) := by
        cases b.retry <;> simp
      rw [same_type, same_retry]
      simp only [true_and, and_assoc]

/-- For every stream of blocks in every segmentation, with a buffer that holds each line: pulling
    the events succeeds, and they are those that pushing the whole text gives exactly when no
    block without data leaves a type or a delay to a later one with data. -/
theorem parsers_agree_iff (blocks : List Block) (capacity : Nat) (pieces : List Bytes)
    (some_room : 0 < capacity) (fits : ∀ b ∈ blocks, b.FitsIn capacity)
    (segments : pieces.flatten = render blocks) : (∃ events, sseEvents { capacity, pieces } = .ok events ∧
      events.map ServerSentEvent.shown = (Parser.feed {} (render blocks)).2.map ServerSentEvent.shown) ↔
      Contained message none blocks := by
  have here : At capacity (render blocks) { capacity, pieces } :=
    ⟨rfl, segments, Nat.zero_le _⟩
  have pulled : sseEvents { capacity, pieces } = .ok (pulls {} blocks) := by
    rw [sseEvents_eq]
    exact events_pulls some_room blocks fits {} ⟨rfl, rfl⟩ _ here
  have pushed := feed_pushes blocks {} ⟨rfl, rfl⟩ rfl
  rw [pushed, pulled, ← pulls_pushes_iff blocks {} rfl rfl]
  constructor
  · rintro ⟨events, same, agree⟩
    cases same
    exact agree
  · intro agree
    exact ⟨_, rfl, agree⟩

def naming : Block := { fields := [⟨octets "event: foo", false, by decide, by decide⟩], crlf := false }

def speaking : Block := { fields := [⟨octets "data: x", true, by decide, by decide⟩], crlf := true }

theorem parsers_agree_speaking : ∃ events,
    sseEvents { capacity := 9, pieces := [octets "data", octets ": x\r\n\r\n"] } = .ok events ∧
      events.map ServerSentEvent.shown =
        (Parser.feed {} (render [speaking])).2.map ServerSentEvent.shown := by
  refine (parsers_agree_iff [speaking] 9 [octets "data", octets ": x\r\n\r\n"] (by decide) (by decide)
    (by decide)).mpr ?_
  rw [Contained, if_neg (by decide)]
  exact ⟨fun _ => rfl, fun _ => rfl, trivial⟩

/-- The event pulled has the type that the block before it named. -/
theorem parsers_disagree : (∀ b ∈ [naming, speaking], b.FitsIn 64) ∧
    (∃ events, sseEvents { capacity := 64, pieces := [render [naming, speaking]] } = .ok events ∧
      events.map ServerSentEvent.shown = [(octets "foo", octets "x", none)]) ∧
    (Parser.feed {} (render [naming, speaking])).2.map ServerSentEvent.shown =
      [(message, octets "x", none)] ∧ message ≠ octets "foo" := by
  exact ⟨by decide, ⟨[{ type := octets "foo", data := octets "x" }], by decide +kernel, by decide⟩,
    by decide +kernel, by decide⟩

end Nxt.Http
