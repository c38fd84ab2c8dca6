import Nxt.WebSocket.Protocol

/- The client receives as the protocol has it, whatever the cuts of its input. -/
namespace Nxt.WebSocket
open Nxt.Lib List

section Reading
variable {input : List Bytes}

theorem octet_append {b : UInt8} {more : Bytes} (same : input.flatten = b :: more) :
    ∃ rest, octet input = .ok (b.toNat, rest) ∧ rest.flatten = more := by
  obtain ⟨rest, done, left⟩ := gather_append (show input.flatten = [b] ++ more from same)
  refine ⟨rest, ?_, left⟩
  unfold octet
  rw [show 1 = [b].length from rfl, done]
  rfl

theorem readWide_append (size : Nat) {bytes more : Bytes} (same : input.flatten = bytes ++ more) :
    ∃ rest, readWide bytes.length size input =
      .ok (bytes.foldl (fun value b => value * 256 + b.toNat) size, rest) ∧ rest.flatten = more := by
  induction bytes generalizing size input with
  | nil => exact ⟨input, rfl, same⟩
  | cons b bytes ih =>
    obtain ⟨middle, first, left⟩ := octet_append same
    obtain ⟨rest, second, left'⟩ := ih (size * 256 + b.toNat) left
    refine ⟨rest, ?_, left'⟩
    rw [length_cons, readWide, first]
    exact second

theorem check_pass {ok : Bool} (holds : ok = true) (message : String) : check ok message = .ok () := if_pos holds

theorem check_fail {ok : Bool} (fails : ok = false) (message : String) : check ok message = .error (.protocol message) :=
  if_neg (by rw [fails]; exact Bool.false_ne_true)

structure HeadValid (f : RawFrame) : Prop where
  flags : (f.reserved = 0 ∧ f.masked = false) ∧
    (f.opcode = 0 ∨ f.opcode = 1 ∨ f.opcode = 2 ∨ f.opcode = 8 ∨ f.opcode = 9 ∨ f.opcode = 10)
  control : f.control = true → f.fin = true ∧ f.short ≤ 125
  minimal : f.Minimal

def headOf (f : RawFrame) : Head := { fin := f.fin, opcode := f.opcode, size := f.size }

theorem short_bound (f : RawFrame) : f.short < 128 := Nat.mod_lt _ (by decide)

def flagsOk (f : RawFrame) : Bool :=
  f.first.toNat / 16 % 8 = 0 && f.second.toNat / 128 = 0 &&
    (f.first.toNat % 16 = 0 || f.first.toNat % 16 = 1 || f.first.toNat % 16 = 2 || f.first.toNat % 16 = 8 ||
      f.first.toNat % 16 = 9 || f.first.toNat % 16 = 10)

theorem flagsOk_iff (f : RawFrame) : flagsOk f = true ↔ (f.reserved = 0 ∧ f.masked = false) ∧
    (f.opcode = 0 ∨ f.opcode = 1 ∨ f.opcode = 2 ∨ f.opcode = 8 ∨ f.opcode = 9 ∨ f.opcode = 10) := by
  simp only [flagsOk, RawFrame.reserved, RawFrame.masked, RawFrame.opcode, Bool.and_eq_true, Bool.or_eq_true,
    decide_eq_true_eq, decide_eq_false_iff_not, not_not, or_assoc]

def controlOk (f : RawFrame) : Bool := !(decide (8 ≤ f.opcode) && (!f.fin || decide (125 < f.short)))

theorem controlOk_iff (f : RawFrame) : controlOk f = true ↔ (f.control = true → f.fin = true ∧ f.short ≤ 125) := by
  unfold controlOk RawFrame.control
  cases f.fin
  · simp
  · simp
    omega

def lengthOk (width size : Nat) : Bool :=
  !((width = 2 && size < 126) || (width = 8 && (size < 65536 || 2 ^ 63 ≤ size)))

theorem lengthOk_iff {f : RawFrame} (extended : f.short = 126 ∨ f.short = 127) :
    lengthOk f.width f.size = true ↔ f.Minimal := by
  unfold lengthOk RawFrame.Minimal RawFrame.width
  rcases extended with is | is
  · simp [is]
  · simp [is]

def headChecks (f : RawFrame) (input : List Bytes) : Except Error (Head × List Bytes) := do
  check (flagsOk f) "invalid WebSocket frame flags/opcode"
  check (controlOk f) "invalid WebSocket control frame"
  if f.short = 126 || f.short = 127 then
    let (size, input) ← readWide (if f.short = 126 then 2 else 8) 0 input
    check (lengthOk (if f.short = 126 then 2 else 8) size) "noncanonical WebSocket length"
    return ({ fin := f.fin, opcode := f.opcode, size }, input)
  else return ({ fin := f.fin, opcode := f.opcode, size := f.short }, input)

theorem readHead_eq {f : RawFrame} {more : Bytes} (same : input.flatten = f.bytes ++ more) :
    ∃ rest, readHead input = headChecks f rest ∧ rest.flatten = f.extended ++ (f.payload ++ more) := by
  have all : input.flatten = f.first :: f.second :: (f.extended ++ (f.payload ++ more)) := by
    rw [same]
    simp [RawFrame.bytes]
  obtain ⟨middle, first, left⟩ := octet_append all
  obtain ⟨rest, second, left'⟩ := octet_append left
  refine ⟨rest, ?_, left'⟩
  unfold readHead
  rw [first]
  dsimp only [bind, Except.bind]
  rw [second]
  rfl

theorem readHead_cases {f : RawFrame} {more : Bytes} (complete : f.Complete) (same : input.flatten = f.bytes ++ more) :
    (HeadValid f ∧ ∃ rest, readHead input = .ok (headOf f, rest) ∧ rest.flatten = f.payload ++ more) ∨
      (¬ HeadValid f ∧ ∃ message, readHead input = .error (.protocol message)) := by
  obtain ⟨middle, read, left⟩ := readHead_eq same
  have bound := short_bound f
  rw [read]
  unfold headChecks
  cases flags : flagsOk f with
  | false =>
    exact .inr ⟨fun valid => absurd (((flagsOk_iff f).mpr valid.flags).symm.trans flags) Bool.noConfusion, _, rfl⟩
  | true =>
    cases control : controlOk f with
    | false =>
      exact .inr ⟨fun valid => absurd (((controlOk_iff f).mpr valid.control).symm.trans control) Bool.noConfusion, _, rfl⟩
    | true =>
      rw [check_pass rfl, check_pass rfl]
      dsimp only [bind, Except.bind]
      by_cases extended : f.short = 126 ∨ f.short = 127
      · have width : (if f.short = 126 then 2 else 8) = f.width := by
          unfold RawFrame.width
          rcases extended with is | is <;> simp [is]
        have size : f.size = beValue f.extended := if_neg (by omega)
        obtain ⟨rest, wide_, left'⟩ := readWide_append 0 left
        rw [complete.extended] at wide_
        rw [if_pos (by simpa using extended), width, wide_]
        dsimp only
        rw [show (f.extended.foldl (fun value b => value * 256 + b.toNat) 0) = f.size from size.symm]
        cases minimal : lengthOk f.width f.size with
        | false =>
          exact .inr ⟨fun valid => absurd (((lengthOk_iff extended).mpr valid.minimal).symm.trans minimal) Bool.noConfusion,
            _, rfl⟩
        | true =>
          exact .inl ⟨⟨(flagsOk_iff f).mp flags, (controlOk_iff f).mp control, (lengthOk_iff extended).mp minimal⟩,
            rest, rfl, left'⟩
      · have size : f.size = f.short := if_pos (by omega)
        have nothing : f.extended = [] := by
          have width : f.width = 0 := by
            unfold RawFrame.width
            rw [if_neg (fun is => extended (.inl is)), if_neg (fun is => extended (.inr is))]
          exact length_eq_zero_iff.mp (complete.extended.trans width)
        rw [nothing, nil_append] at left
        rw [if_neg (by simpa using extended)]
        refine .inl ⟨⟨(flagsOk_iff f).mp flags, (controlOk_iff f).mp control, fun is => absurd (.inl is) extended,
          fun is => absurd (.inr is) extended⟩, middle, ?_, left⟩
        unfold headOf
        rw [size]
        rfl

end Reading

section Frames
variable {masks : Nat → Mask}

structure Collects (c : Client) (begun : Option Begun) : Prop where
  type : c.fragmentType = begun.map Begun.type
  data : c.fragments = (begun.map Begun.data).getD []
  fits : c.fragments.length ≤ c.maxMessageSize

variable {c : Client} {begun : Option Begun} {f : RawFrame}

theorem Collects.grown (collects : Collects c begun) (f : RawFrame) :
    c.fragments ++ f.payload = (Begun.grown begun f).data := by
  rw [collects.data]
  cases begun <;> rfl

theorem fragmentsOk_iff (opcode : Nat) (begun : Bool) :
    (!(decide (opcode = 0) && !begun || decide (opcode ≠ 0) && begun)) = true ↔ (opcode = 0 ↔ begun = true) := by
  cases begun <;> simp

theorem checkData_cases (collects : Collects c begun) (complete : f.Complete) (data : f.control = false) :
    ((f.opcode = 0 ↔ begun.isSome = true) ∧ (Begun.grown begun f).data.length ≤ c.maxMessageSize ∧
        c.checkData (headOf f) = .ok ()) ∨
      (¬ ((f.opcode = 0 ↔ begun.isSome = true) ∧ (Begun.grown begun f).data.length ≤ c.maxMessageSize) ∧
        ∃ message, c.checkData (headOf f) = .error (.protocol message)) := by
  have grown := congrArg List.length (collects.grown f)
  rw [length_append, complete.payload] at grown
  have fits := collects.fits
  have some_ : c.fragmentType.isSome = begun.isSome := by rw [collects.type, Option.isSome_map]
  have none_ : c.fragmentType.isNone = !begun.isSome := by rw [collects.type, Option.isNone_map, Option.not_isSome]
  have free : (headOf f).control = false := data
  have checks : c.checkData (headOf f) =
      (check (!(decide (f.opcode = 0) && !begun.isSome || decide (f.opcode ≠ 0) && begun.isSome))
        "invalid WebSocket fragmentation" >>= fun _ =>
          check (decide (f.size ≤ c.maxMessageSize - c.fragments.length)) "WebSocket message limit exceeded") := by
    unfold Client.checkData
    rw [free, if_neg Bool.false_ne_true, some_, none_]
    rfl
  rw [checks]
  have order := fragmentsOk_iff f.opcode begun.isSome
  by_cases fragments : f.opcode = 0 ↔ begun.isSome = true
  · rw [order.mpr fragments, check_pass rfl]
    by_cases size : f.size ≤ c.maxMessageSize - c.fragments.length
    · exact .inl ⟨fragments, by omega, check_pass (decide_eq_true size) _⟩
    · exact .inr ⟨fun both => size (by omega), _, check_fail (decide_eq_false size) _⟩
  · have fails := Bool.eq_false_iff.mpr (mt order.mp fragments)
    rw [fails]
    exact .inr ⟨fun both => fragments both.1, _, rfl⟩

theorem closeEvent_cases (payload : Bytes) :
    (CloseValid payload ∧ closeEvent payload = .ok (Endpoint.closeMessage payload)) ∨
      (¬ CloseValid payload ∧ ∃ message, closeEvent payload = .error (.protocol message)) := by
  match payload with
  | [] => exact .inl ⟨.inl rfl, rfl⟩
  | [a] =>
    refine .inr ⟨?_, _, rfl⟩
    rintro (never | ⟨high, low, reason, never, _⟩)
    · cases never
    · cases never
  | high :: low :: reason =>
    have drop : (high :: low :: reason).drop 2 = reason := rfl
    have event : closeEvent (high :: low :: reason) =
        if !closeCode (high.toNat * 256 + low.toNat) || !utf8 reason then
          .error (.protocol "invalid WebSocket close code/reason")
        else .ok (Endpoint.closeMessage (high :: low :: reason)) := rfl
    rw [event]
    by_cases ok : closeCode (high.toNat * 256 + low.toNat) = true ∧ utf8 reason = true
    · rw [if_neg (by rw [ok.1, ok.2]; exact Bool.false_ne_true)]
      exact .inl ⟨.inr ⟨high, low, reason, rfl, ok.1, (utf8_iff reason).mp ok.2⟩, rfl⟩
    · rw [if_pos (by rw [← Bool.not_and, Bool.not_eq_true', Bool.and_eq_false_iff]; simpa [imp_iff_not_or] using ok)]
      refine .inr ⟨?_, _, rfl⟩
      rintro (never | ⟨high', low', reason', same, code, text⟩)
      · cases never
      · cases same
        exact ok ⟨code, (utf8_iff reason).mpr text⟩

def afterFrame (masks : Nat → Mask) (c : Client) (begun : Option Begun) (f : RawFrame) : Client × Option Message :=
  match completed begun f with
  | some (.ping payload) => (c.writeFrame masks 10 payload, none)
  | some (.pong payload) => (c, some { type := .pong, data := payload })
  | some (.close payload) =>
      ({ (if c.closeSent then c else c.writeFrame masks 8 payload) with
          closeSent := true, closeReceived := true, fragments := [], connected := false },
        some (Endpoint.closeMessage payload))
  | some (.message type data) =>
      ({ c with fragmentType := none, fragments := [] }, if c.closeSent then none else some { type, data })
  | none => ({ c with fragmentType := some (Begun.grown begun f).type, fragments := (Begun.grown begun f).data }, none)

theorem handle_data (collects : Collects c begun)
    (known : f.opcode = 0 ∨ f.opcode = 1 ∨ f.opcode = 2) (fragments : f.opcode = 0 ↔ begun.isSome = true) :
    ((f.fin = true → (Begun.grown begun f).type = .text → Utf8Text (Begun.grown begun f).data) ∧
        c.handle masks (headOf f) f.payload = .ok (afterFrame masks c begun f)) ∨
      (¬ (f.fin = true → (Begun.grown begun f).type = .text → Utf8Text (Begun.grown begun f).data) ∧
        ∃ message, c.handle masks (headOf f) f.payload = .error (.protocol message)) := by
  have type : (if f.opcode ≠ 0 then some (dataType f.opcode) else c.fragmentType) = some (Begun.grown begun f).type := by
    rw [collects.type]
    cases begun with
    | none =>
      rw [if_pos (fun zero => absurd (fragments.mp zero) (by exact Bool.false_ne_true))]
      rfl
    | some message =>
      rw [if_neg (not_not.mpr (fragments.mpr rfl))]
      rfl
  have item : completed begun f =
      if f.fin then some (.message (Begun.grown begun f).type (Begun.grown begun f).data) else none := by
    unfold completed
    rw [if_neg (by omega), if_neg (by omega), if_neg (by omega)]
  unfold Client.handle headOf
  dsimp only
  rw [if_neg (by omega), if_neg (by omega), if_neg (by omega), type, collects.grown f]
  unfold afterFrame
  rw [item]
  cases fin : f.fin with
  | false => exact .inl ⟨fun never => absurd never Bool.false_ne_true, rfl⟩
  | true =>
    have text := utf8_iff (Begun.grown begun f).data
    by_cases wrong : (Begun.grown begun f).type = .text ∧ ¬ Utf8Text (Begun.grown begun f).data
    · right
      refine ⟨fun valid => wrong.2 (valid rfl wrong.1), "invalid WebSocket UTF-8", ?_⟩
      rw [if_neg (by decide)]
      exact if_pos ⟨wrong.1, by simpa using mt text.mp wrong.2⟩
    · left
      refine ⟨fun _ is => by_contra fun not_ => wrong ⟨is, not_⟩, ?_⟩
      have passes : ¬ ((Begun.grown begun f).type = .text ∧ (!utf8 (Begun.grown begun f).data) = true) := by
        rintro ⟨is, not_⟩
        rw [Bool.not_eq_true', Bool.eq_false_iff] at not_
        exact wrong ⟨is, mt text.mpr not_⟩
      rw [if_neg (by decide)]
      show (if (Begun.grown begun f).type = .text ∧ (!utf8 (Begun.grown begun f).data) = true then _ else _) = _
      rw [if_neg passes]
      cases c.closeSent <;> rfl

theorem handle_control (known : f.opcode = 8 ∨ f.opcode = 9 ∨ f.opcode = 10) :
    ((f.opcode = 8 → CloseValid f.payload) ∧ c.handle masks (headOf f) f.payload = .ok (afterFrame masks c begun f)) ∨
      (¬ (f.opcode = 8 → CloseValid f.payload) ∧
        ∃ message, c.handle masks (headOf f) f.payload = .error (.protocol message)) := by
  unfold Client.handle headOf
  dsimp only
  rcases known with is | is | is
  · have item : completed begun f = some (.close f.payload) := by
      unfold completed
      rw [if_neg (by omega), if_neg (by omega), if_pos is]
    unfold afterFrame
    rw [item, if_neg (by omega), if_neg (by omega), if_pos is]
    rcases closeEvent_cases f.payload with ⟨valid, event⟩ | ⟨invalid, message, event⟩
    · rw [event]
      exact .inl ⟨fun _ => valid, rfl⟩
    · rw [event]
      exact .inr ⟨fun valid => invalid (valid is), message, rfl⟩
  · have item : completed begun f = some (.ping f.payload) := if_pos is
    unfold afterFrame
    rw [item, if_pos is]
    exact .inl ⟨fun eight => absurd eight (by omega), rfl⟩
  · have item : completed begun f = some (.pong f.payload) := by
      unfold completed
      rw [if_neg (by omega), if_pos is]
    unfold afterFrame
    rw [item, if_neg (by omega), if_pos is]
    exact .inl ⟨fun eight => absurd eight (by omega), rfl⟩

theorem Valid.head {limit : Nat} (complete : f.Complete) (valid : Valid limit begun f) : HeadValid f := by
  refine ⟨⟨⟨valid.unreserved, valid.unmasked⟩, valid.known⟩, ?_, valid.minimal⟩
  intro control
  obtain ⟨fin, small⟩ := valid.control control
  refine ⟨fin, ?_⟩
  rw [complete.payload] at small
  have bound := short_bound f
  by_contra large
  have wide_ : f.short = 126 ∨ f.short = 127 := by omega
  rcases wide_ with is | is
  · have least := valid.minimal.1 is
    omega
  · have least := (valid.minimal.2 is).1
    omega

theorem HeadValid.short_payload (complete : f.Complete) (head : HeadValid f) (control : f.control = true) :
    f.fin = true ∧ f.payload.length ≤ 125 := by
  obtain ⟨fin, short⟩ := head.control control
  refine ⟨fin, ?_⟩
  rw [complete.payload, RawFrame.size, if_pos (by omega)]
  exact short

theorem readPayload_append (complete : f.Complete) {input : List Bytes} {more : Bytes}
    (same : input.flatten = f.payload ++ more) :
    ∃ rest, readPayload f.size input = .ok (f.payload, rest) ∧ rest.flatten = more := by
  obtain ⟨rest, done, left⟩ := gather_append same
  rw [complete.payload] at done
  exact ⟨rest, by rw [readPayload, done], left⟩

theorem receiveFrame_cases (collects : Collects c begun)
    (complete : f.Complete) {more : Bytes} (same : c.input.flatten = f.bytes ++ more) :
    (Valid c.maxMessageSize begun f ∧ ∃ rest, rest.flatten = more ∧
        c.receiveFrame masks = .ok (afterFrame masks { c with input := rest } begun f)) ∨
      (¬ Valid c.maxMessageSize begun f ∧ ∃ message, c.receiveFrame masks = .error (.protocol message)) := by
  unfold Client.receiveFrame
  rcases readHead_cases complete same with ⟨head, middle, read, left⟩ | ⟨invalid, message, read⟩
  · obtain ⟨rest, payload, left'⟩ := readPayload_append complete left
    have collects' : Collects { c with input := rest } begun := ⟨collects.type, collects.data, collects.fits⟩
    rw [read]
    dsimp only [bind, Except.bind]
    cases control : f.control with
    | true =>
      have free : c.checkData (headOf f) = .ok () := if_pos control
      have known : f.opcode = 8 ∨ f.opcode = 9 ∨ f.opcode = 10 := by
        have high : 8 ≤ f.opcode := of_decide_eq_true control
        have all := head.flags.2
        omega
      rw [free]
      dsimp only
      rw [show (headOf f).size = f.size from rfl, payload]
      dsimp only
      rcases @handle_control masks { c with input := rest } begun f known with ⟨close, handled⟩ | ⟨invalid, message, handled⟩
      · exact .inl ⟨⟨head.flags.1.2, head.flags.1.1, head.flags.2, head.minimal, head.short_payload complete,
          fun data => absurd (data.symm.trans control) Bool.noConfusion,
          fun data => absurd (data.symm.trans control) Bool.noConfusion,
          fun data => absurd (data.symm.trans control) Bool.noConfusion, close⟩, rest, left', handled⟩
      · exact .inr ⟨fun valid => invalid valid.close, message, handled⟩
    | false =>
      have known : f.opcode = 0 ∨ f.opcode = 1 ∨ f.opcode = 2 := by
        have low : ¬ 8 ≤ f.opcode := of_decide_eq_false control
        have all := head.flags.2
        omega
      rcases checkData_cases collects complete control with ⟨fragments, fits, passed⟩ | ⟨invalid, message, failed⟩
      · rw [passed]
        dsimp only
        rw [show (headOf f).size = f.size from rfl, payload]
        dsimp only
        rcases @handle_data masks { c with input := rest } begun f collects' known fragments with
          ⟨text, handled⟩ | ⟨invalid, message, handled⟩
        · exact .inl ⟨⟨head.flags.1.2, head.flags.1.1, head.flags.2, head.minimal, head.short_payload complete,
            fun _ => fragments, fun _ => fits, fun _ => text, fun eight => absurd eight (by omega)⟩, rest, left', handled⟩
        · exact .inr ⟨fun valid => invalid (valid.text control), message, handled⟩
      · rw [failed]
        exact .inr ⟨fun valid => invalid ⟨valid.fragments control, valid.fits control⟩, message, rfl⟩
  · rw [read]
    exact .inr ⟨fun valid => invalid (valid.head complete), message, rfl⟩

end Frames

section Ends
variable {α β : Type} {input rest : List Bytes}

/-- Nothing but a violation of the protocol is thrown. -/
def Strict (x : Except Error α) : Prop := ∀ e, x = .error e → ∃ message, e = .protocol message

theorem Strict.bind {x : Except Error α} {f : α → Except Error β} (first : Strict x) (next : ∀ a, Strict (f a)) :
    Strict (x >>= f) := by
  cases x with
  | error e =>
    intro e' failed
    cases failed
    exact first e rfl
  | ok a => exact next a

theorem Strict.error (message : String) : Strict (.error (.protocol message) : Except Error α) := fun _ failed =>
  ⟨message, (Except.error.inj failed).symm⟩

theorem check_strict (ok : Bool) (message : String) : Strict (check ok message) := by
  cases ok
  · exact .error message
  · exact nofun

theorem octet_strict : Strict (octet input) := by
  unfold octet
  split
  · exact .error _
  · exact nofun

theorem readWide_strict (width size : Nat) (input : List Bytes) : Strict (readWide width size input) := by
  induction width generalizing size input with
  | zero => exact nofun
  | succ width ih => exact octet_strict.bind fun _ => ih _ _

theorem readHead_strict (input : List Bytes) : Strict (readHead input) := by
  refine octet_strict.bind fun first => octet_strict.bind fun second => (check_strict _ _).bind fun _ =>
    (check_strict _ _).bind fun _ => ?_
  dsimp only
  split
  · exact (readWide_strict _ _ _).bind fun _ => (check_strict _ _).bind fun _ => nofun
  · exact nofun

theorem handle_strict (masks : Nat → Mask) (c : Client) (head : Head) (payload : Bytes) :
    Strict (c.handle masks head payload) := by
  have closes : Strict (closeEvent payload) := by
    unfold closeEvent
    split_ifs
    · exact nofun
    · exact .error _
    · dsimp only
      split_ifs
      · exact .error _
      · exact nofun
  unfold Client.handle
  dsimp only
  split_ifs
  all_goals first | exact .error _ | exact closes.bind fun _ => nofun | exact nofun

theorem receiveFrame_strict (masks : Nat → Mask) (c : Client) : Strict (c.receiveFrame masks) := by
  refine (readHead_strict _).bind fun head => Strict.bind ?_ fun _ => Strict.bind ?_ fun _ => handle_strict _ _ _ _
  · unfold Client.checkData
    split
    · exact nofun
    · exact (check_strict _ _).bind fun _ => check_strict _ _
  · unfold readPayload
    split
    · exact .error _
    · exact nofun

theorem octet_ok {n : Nat} (read : octet input = .ok (n, rest)) :
    ∃ b : UInt8, n = b.toNat ∧ input.flatten = b :: rest.flatten := by
  unfold octet at read
  cases found : gather 1 input with
  | none =>
    rw [found] at read
    cases read
  | some taken =>
    rw [found] at read
    cases read
    obtain ⟨length, same⟩ := gather_some found
    obtain ⟨b, one⟩ := length_eq_one_iff.mp length
    exact ⟨b, by rw [one]; rfl, by rw [same, one]; rfl⟩

theorem readWide_ok {width size n : Nat} (read : readWide width size input = .ok (n, rest)) :
    ∃ bytes : Bytes, bytes.length = width ∧ input.flatten = bytes ++ rest.flatten ∧
      n = bytes.foldl (fun value b => value * 256 + b.toNat) size := by
  induction width generalizing size input with
  | zero =>
    cases read
    exact ⟨[], rfl, rfl, rfl⟩
  | succ width ih =>
    obtain ⟨⟨byte, middle⟩, first, read⟩ := bind_ok read
    obtain ⟨b, rfl, cut⟩ := octet_ok first
    obtain ⟨bytes, length, cut', same⟩ := ih read
    exact ⟨b :: bytes, by rw [length_cons, length], by rw [cut, cut', cons_append], same⟩

theorem readHead_ok {head : Head} (read : readHead input = .ok (head, rest)) :
    ∃ f : RawFrame, f.extended.length = f.width ∧ head.size = f.size ∧
      input.flatten = f.first :: f.second :: (f.extended ++ rest.flatten) := by
  obtain ⟨⟨_, middle⟩, one, read⟩ := bind_ok read
  obtain ⟨first, rfl, cut⟩ := octet_ok one
  obtain ⟨⟨_, middle'⟩, two, read⟩ := bind_ok read
  obtain ⟨second, rfl, cut'⟩ := octet_ok two
  obtain ⟨_, _, read⟩ := bind_ok read
  obtain ⟨_, _, read⟩ := bind_ok read
  rw [cut, cut']
  dsimp only at read
  split at read
  · rename_i wide_
    obtain ⟨⟨size, left⟩, three, read⟩ := bind_ok read
    obtain ⟨bytes, length, cut'', value⟩ := readWide_ok three
    obtain ⟨_, _, read⟩ := bind_ok read
    cases read
    have long : second.toNat % 128 = 126 ∨ second.toNat % 128 = 127 := by simpa using wide_
    refine ⟨⟨first, second, bytes, []⟩, ?_, value.trans (if_neg (show ¬second.toNat % 128 < 126 by omega)).symm,
      by rw [cut'']⟩
    rcases long with is | is <;> simp [RawFrame.width, RawFrame.short, length, is]
  · rename_i narrow
    cases read
    have short : ¬second.toNat % 128 = 126 ∧ ¬second.toNat % 128 = 127 := by simpa using narrow
    have bound : second.toNat % 128 < 128 := Nat.mod_lt _ (by decide)
    exact ⟨⟨first, second, [], []⟩, ((if_neg short.1).trans (if_neg short.2)).symm,
      (if_pos (show second.toNat % 128 < 126 by omega)).symm, rfl⟩

theorem receiveFrame_complete {masks : Nat → Mask} {c : Client} {r : Client × Option Message}
    (done : c.receiveFrame masks = .ok r) : ∃ (f : RawFrame) (rest : Bytes), c.input.flatten = f.bytes ++ rest ∧
      f.Complete := by
  obtain ⟨⟨head, middle⟩, read, done⟩ := bind_ok done
  obtain ⟨f, extended, size, cut⟩ := readHead_ok read
  obtain ⟨_, _, done⟩ := bind_ok done
  obtain ⟨⟨payload, left⟩, taken, _⟩ := bind_ok done
  unfold readPayload at taken
  split at taken
  · cases taken
  · rename_i found
    cases taken
    obtain ⟨length, cut'⟩ := gather_some found
    exact ⟨{ f with payload }, left.flatten, by rw [cut, cut']; simp [RawFrame.bytes], extended, length.trans size⟩

end Ends

section Endpoints
variable {masks : Nat → Mask}

/-- No whole and valid frame begins what is left: the input ends, or the next frame is cut short or a violation. -/
def Ends (limit : Nat) (begun : Option Begun) (tail : Bytes) : Prop :=
  ∀ (f : RawFrame) (rest : Bytes), tail = f.bytes ++ rest → f.Complete → ¬ Valid limit begun f

structure Reads (c : Client) (begun : Option Begun) (frames : List RawFrame) (tail : Bytes) : Prop where
  input : c.input.flatten = frames.flatMap RawFrame.bytes ++ tail
  collects : Collects c begun
  valid : AllValid c.maxMessageSize begun frames
  complete : ∀ f ∈ frames, f.Complete
  ends : Ends c.maxMessageSize (begunAt begun frames) tail

def outputs (masks : Nat → Mask) (sent : List Sent) : List Output :=
  sent.mapIdx fun i s => { unread := s.unread, bytes := frame (masks i) s.opcode s.payload }

structure Same (masks : Nat → Mask) (c : Client) (e : Endpoint) : Prop where
  limit : c.maxMessageSize = e.limit
  connected : c.connected = e.connected
  closeSent : c.closeSent = e.closeSent
  closeReceived : c.closeReceived = e.closeReceived
  written : c.written = outputs masks e.sent

def Answers : Except Error (Option Message) → Outcome → Prop
  | .ok (some message), outcome => outcome = .event message
  | .ok none, outcome => outcome = .nothing ∨ outcome = .done
  | .error (.protocol _), outcome => outcome = .violation
  | .error _, outcome => outcome = .refused

variable {c : Client} {begun : Option Begun} {tail : Bytes} {f : RawFrame} {frames : List RawFrame}

theorem Same.put {e : Endpoint} (same : Same masks c e) (unread : e.unread = c.input.flatten.length)
    (opcode : Nat) (payload : Bytes) : Same masks (c.writeFrame masks opcode payload) (e.put opcode payload) := by
  have length : c.written.length = e.sent.length := by rw [same.written, outputs, length_mapIdx]
  refine ⟨same.limit, same.connected, same.closeSent, same.closeReceived, ?_⟩
  unfold Client.writeFrame Endpoint.put outputs
  rw [mapIdx_append]
  dsimp only
  rw [length, same.written, unread]
  simp [outputs]

def settled (r : Client × Except Error (Option Message)) : Client :=
  match r.2 with
  | .ok _ => r.1
  | .error _ => { r.1 with connected := false }

/-- Between two calls, and while the connection is there, the endpoint holds the items that are still to come. -/
def Awaits (c : Client) (e : Endpoint) (tail : Bytes) : Prop :=
  c.connected = true → ∃ begun frames, Reads c begun frames tail ∧ e.items = arrivals tail.length begun frames ∧
    e.unread = c.input.flatten.length

structure Agrees (masks : Nat → Mask) (tail : Bytes) (r : Client × Except Error (Option Message)) (s : Endpoint × Outcome) :
    Prop where
  same : Same masks (settled r) s.1
  answers : Answers r.2 s.2
  awaits : Awaits (settled r) s.1 tail

theorem Reads.last (reads : Reads c begun [] tail) : ∃ message, c.receiveFrame masks = .error (.protocol message) := by
  have input : c.input.flatten = tail := reads.input
  cases done : c.receiveFrame masks with
  | error e =>
    obtain ⟨message, rfl⟩ := receiveFrame_strict masks c e done
    exact ⟨message, rfl⟩
  | ok r =>
    obtain ⟨f, rest, same, complete⟩ := receiveFrame_complete done
    rcases @receiveFrame_cases masks c begun f reads.collects complete rest same with ⟨valid, _⟩ | ⟨_, _, failed⟩
    · exact absurd valid (reads.ends f rest (input.symm.trans same) complete)
    · rw [failed] at done
      cases done

theorem Reads.next (reads : Reads c begun (f :: frames) tail) : ∃ rest, rest.flatten = frames.flatMap RawFrame.bytes ++ tail ∧
      c.receiveFrame masks = .ok (afterFrame masks { c with input := rest } begun f) ∧
      ∀ c', c'.maxMessageSize = c.maxMessageSize → c'.input = rest → Collects c' (begunAfter begun f) →
        Reads c' (begunAfter begun f) frames tail := by
  obtain ⟨valid, later⟩ := reads.valid
  obtain ⟨complete, completes⟩ := forall_mem_cons.mp reads.complete
  have input : c.input.flatten = f.bytes ++ (frames.flatMap RawFrame.bytes ++ tail) := by
    rw [reads.input, flatMap_cons, append_assoc]
  rcases @receiveFrame_cases masks c begun f reads.collects complete _ input with ⟨_, rest, left, done⟩ | ⟨invalid, _⟩
  · refine ⟨rest, left, done, ?_⟩
    intro c' limit here collects
    exact ⟨by rw [here]; exact left, collects, by rw [limit]; exact later, completes, by rw [limit]; exact reads.ends⟩
  · exact absurd valid invalid

theorem begunAfter_control (control : 8 ≤ f.opcode) : begunAfter begun f = begun := by
  have is : f.control = true := decide_eq_true control
  unfold begunAfter
  rw [if_pos is]

theorem completed_inv {limit : Nat} (valid : Valid limit begun f) :
    (f.opcode = 9 ∧ completed begun f = some (.ping f.payload)) ∨
      (f.opcode = 10 ∧ completed begun f = some (.pong f.payload)) ∨
      (f.opcode = 8 ∧ completed begun f = some (.close f.payload)) ∨ (f.control = false ∧ f.fin = true ∧
        completed begun f = some (.message (Begun.grown begun f).type (Begun.grown begun f).data) ∧ begunAfter begun f = none) ∨
      (f.control = false ∧ f.fin = false ∧ completed begun f = none ∧ begunAfter begun f = some (Begun.grown begun f)) := by
  have known := valid.known
  unfold completed begunAfter RawFrame.control
  by_cases nine : f.opcode = 9
  · exact .inl ⟨nine, if_pos nine⟩
  · by_cases ten : f.opcode = 10
    · exact .inr (.inl ⟨ten, by rw [if_neg nine, if_pos ten]⟩)
    · by_cases eight : f.opcode = 8
      · exact .inr (.inr (.inl ⟨eight, by rw [if_neg nine, if_neg ten, if_pos eight]⟩))
      · have data : decide (8 ≤ f.opcode) = false := decide_eq_false (by omega)
        rw [if_neg nine, if_neg ten, if_neg eight, data]
        cases f.fin with
        | true => exact .inr (.inr (.inr (.inl ⟨rfl, rfl, rfl, rfl⟩)))
        | false => exact .inr (.inr (.inr (.inr ⟨rfl, rfl, rfl, rfl⟩)))

theorem collects_none (c : Client) : Collects { c with fragmentType := none, fragments := [] } none :=
  ⟨rfl, rfl, Nat.zero_le _⟩

theorem collects_grown (fits : (Begun.grown begun f).data.length ≤ c.maxMessageSize) :
    Collects { c with fragmentType := some (Begun.grown begun f).type, fragments := (Begun.grown begun f).data }
      (some (Begun.grown begun f)) :=
  ⟨rfl, rfl, fits⟩

theorem arrivals_some {after : Nat} {item : Item}
    (complete : completed begun f = some item) : arrivals after begun (f :: frames) =
      { item, behind := (frames.flatMap RawFrame.bytes).length + after } :: arrivals after (begunAfter begun f) frames := by
  rw [arrivals, complete]

theorem arrivals_none {after : Nat} (complete : completed begun f = none) :
    arrivals after begun (f :: frames) = arrivals after (begunAfter begun f) frames := by
  rw [arrivals, complete]

theorem receiveLoop_agrees (frames : List RawFrame) (fuel : Nat) {e : Endpoint}
    (same : Same masks c e) (reads : Reads c begun frames tail) (enough : c.input.flatten.length < fuel) :
    Agrees masks tail (receiveLoop masks fuel c) (e.take (arrivals tail.length begun frames)) := by
  induction frames generalizing fuel c e begun with
  | nil =>
    obtain _ | fuel := fuel
    · omega
    · obtain ⟨message, failed⟩ := @Reads.last masks c begun tail reads
      rw [receiveLoop, failed]
      exact ⟨⟨same.limit, rfl, same.closeSent, same.closeReceived, same.written⟩, rfl,
        fun never => absurd never Bool.false_ne_true⟩
  | cons f frames ih =>
    obtain _ | fuel := fuel
    · omega
    · obtain ⟨valid, _⟩ := reads.valid
      obtain ⟨rest, left, done, next⟩ := Reads.next reads
      have shorter : rest.flatten.length < fuel := by
        have whole := congrArg List.length reads.input
        rw [flatMap_cons, append_assoc, length_append, ← left] at whole
        have some_ : 2 ≤ f.bytes.length := by simp [RawFrame.bytes]
        omega
      have unread : (frames.flatMap RawFrame.bytes).length + tail.length = rest.flatten.length := by
        rw [left, length_append]
      have collects : Collects { c with input := rest } begun := ⟨reads.collects.type, reads.collects.data, reads.collects.fits⟩
      have here {items : List Arrival} {behind : Nat} :
          Same masks { c with input := rest } { e with items, unread := behind } :=
        ⟨same.limit, same.connected, same.closeSent, same.closeReceived, same.written⟩
      rw [receiveLoop, done]
      unfold afterFrame
      rcases completed_inv valid with ⟨is, item⟩ | ⟨is, item⟩ | ⟨is, item⟩ | ⟨data, fin, item, after⟩ | ⟨data, fin, item, after⟩
      · rw [item, arrivals_some item, unread, begunAfter_control (by omega)]
        rw [begunAfter_control (by omega)] at next
        have put := @Same.put masks { c with input := rest }
          { e with items := arrivals tail.length begun frames, unread := rest.flatten.length } here rfl 10 f.payload
        exact ih fuel put (next _ rfl rfl ⟨collects.type, collects.data, collects.fits⟩) shorter
      · rw [item, arrivals_some item, unread, begunAfter_control (by omega)]
        rw [begunAfter_control (by omega)] at next
        exact ⟨here, rfl, fun _ => ⟨begun, frames, next _ rfl rfl collects, rfl, rfl⟩⟩
      · rw [item, arrivals_some item, unread]
        have put := @Same.put masks { c with input := rest }
          { e with items := arrivals tail.length (begunAfter begun f) frames, unread := rest.flatten.length } here rfl 8 f.payload
        refine ⟨?_, rfl, fun never => absurd never Bool.false_ne_true⟩
        rw [Endpoint.take]
        dsimp only [settled]
        cases closed : c.closeSent with
        | true =>
          rw [same.closeSent.symm.trans closed]
          exact ⟨same.limit, rfl, rfl, rfl, same.written⟩
        | false =>
          rw [same.closeSent.symm.trans closed]
          exact ⟨same.limit, rfl, rfl, rfl, put.written⟩
      · rw [item, arrivals_some item, unread, after]
        rw [after] at next
        have empty := collects_none { c with input := rest }
        rw [Endpoint.take]
        dsimp only
        by_cases closed : c.closeSent = true
        · rw [if_pos closed, if_pos (same.closeSent.symm.trans closed)]
          exact ih fuel ⟨same.limit, same.connected, same.closeSent, same.closeReceived, same.written⟩
            (next _ rfl rfl empty) shorter
        · rw [if_neg closed, if_neg (by rw [← same.closeSent]; exact closed)]
          exact ⟨⟨same.limit, same.connected, same.closeSent, same.closeReceived, same.written⟩, rfl,
            fun _ => ⟨none, frames, next _ rfl rfl empty, rfl, rfl⟩⟩
      · rw [item, arrivals_none item]
        dsimp only
        have grown := @collects_grown { c with input := rest } begun f (valid.fits data)
        rw [after] at next ⊢
        exact ih fuel ⟨same.limit, same.connected, same.closeSent, same.closeReceived, same.written⟩
          (next _ rfl rfl grown) shorter

end Endpoints

section Calls
variable {masks : Nat → Mask}

structure Synced (masks : Nat → Mask) (tail : Bytes) (c : Client) (e : Endpoint) : Prop where
  same : Same masks c e
  awaits : Awaits c e tail

structure Keeps (masks : Nat → Mask) (tail : Bytes) (r : Client × Except Error (Option Message)) (s : Endpoint × Outcome) :
    Prop where
  synced : Synced masks tail r.1 s.1
  answers : Answers r.2 s.2

variable {c : Client} {e : Endpoint} {tail : Bytes}

theorem Synced.refused (synced : Synced masks tail c e) (message : String) :
    Keeps masks tail (c, .error (.logic message)) (e, .refused) :=
  ⟨synced, rfl⟩

section Guard
variable {α : Type} {operation : Client → Client × Except Error α} {c' : Client}

theorem guarded_closed (closed : c.connected = false) :
    c.guarded operation = (c, .error (.logic "WebSocket connection is closed")) := by
  unfold Client.guarded
  rw [closed]
  rfl

theorem guarded_ok {a : α} (connected : c.connected = true) (done : operation c = (c', .ok a)) :
    c.guarded operation = (c', .ok a) := by
  unfold Client.guarded
  rw [connected, if_neg (by decide), done]

theorem guarded_error {error : Error} (connected : c.connected = true) (failed : operation c = (c', .error error)) :
    c.guarded operation = ({ c' with connected := false }, .error error) := by
  unfold Client.guarded
  rw [connected, if_neg (by decide), failed]

end Guard

theorem Synced.receive (synced : Synced masks tail c e) : Keeps masks tail (c.receive masks) e.receive := by
  unfold Client.receive Endpoint.receive
  rw [← synced.same.closeReceived, ← synced.same.connected]
  by_cases closed : c.closeReceived = true
  · rw [if_pos closed, if_pos closed]
    exact ⟨synced, .inl rfl⟩
  · rw [if_neg closed, if_neg closed]
    cases connected : c.connected with
    | false =>
      rw [guarded_closed connected]
      exact synced.refused _
    | true =>
      obtain ⟨begun, frames, reads, items, unread⟩ := synced.awaits connected
      have agrees := receiveLoop_agrees frames _ synced.same reads (Nat.lt_succ_self _)
      rw [← items] at agrees
      rw [if_pos rfl]
      cases run : receiveLoop masks (c.input.flatten.length + 1) c with
      | mk c' r =>
        rw [run] at agrees
        cases r with
        | ok event =>
          rw [@guarded_ok c _ (fun c => receiveLoop masks (c.input.flatten.length + 1) c) c' event connected run]
          exact ⟨⟨agrees.same, agrees.awaits⟩, agrees.answers⟩
        | error error =>
          rw [@guarded_error c _ (fun c => receiveLoop masks (c.input.flatten.length + 1) c) c' error connected run]
          exact ⟨⟨agrees.same, agrees.awaits⟩, agrees.answers⟩

theorem Synced.put (synced : Synced masks tail c e) (connected : c.connected = true) (opcode : Nat) (payload : Bytes) :
    Synced masks tail (c.writeFrame masks opcode payload) (e.put opcode payload) := by
  obtain ⟨begun, frames, reads, items, unread⟩ := synced.awaits connected
  exact ⟨synced.same.put unread opcode payload, fun _ => ⟨begun, frames,
    ⟨reads.input, ⟨reads.collects.type, reads.collects.data, reads.collects.fits⟩, reads.valid, reads.complete, reads.ends⟩,
    items, unread⟩⟩

theorem Synced.disconnect (synced : Synced masks tail c e) :
    Synced masks tail { c with connected := false } { e with connected := false } :=
  ⟨⟨synced.same.limit, rfl, synced.same.closeSent, synced.same.closeReceived, synced.same.written⟩,
    fun never => absurd never Bool.false_ne_true⟩

/-- The body of `send` and of `ping`. -/
def writes (masks : Nat → Mask) (opcode : Nat) (data : Bytes) (c : Client) : Client × Except Error Unit :=
  if c.closeSent then (c, .error (.logic "WebSocket is closing")) else (c.writeFrame masks opcode data, .ok ())

section
variable (synced : Synced masks tail c e)
include synced

theorem Synced.sends (opcode : Nat) (data : Bytes) :
    Keeps masks tail ((c.guarded (writes masks opcode data)).1, (c.guarded (writes masks opcode data)).2.map fun _ => none)
      (e.sends opcode data) := by
  unfold Endpoint.sends
  rw [← synced.same.connected]
  cases connected : c.connected with
  | false =>
    rw [guarded_closed connected]
    exact synced.refused _
  | true =>
    rw [if_neg (by decide)]
    by_cases closed : c.closeSent = true
    · rw [guarded_error connected (show writes masks opcode data c = _ from if_pos closed),
        if_pos (synced.same.closeSent.symm.trans closed)]
      exact ⟨synced.disconnect, rfl⟩
    · rw [guarded_ok connected (show writes masks opcode data c = _ from if_neg closed),
        if_neg (by rw [← synced.same.closeSent]; exact closed)]
      exact ⟨synced.put connected opcode data, .inr rfl⟩

theorem Synced.invalid (message : String) :
    Keeps masks tail (c, .error (.invalidArgument message)) (e, .refused) :=
  ⟨synced, rfl⟩

theorem Synced.send (type : MessageType) (data : Bytes) :
    Keeps masks tail (c.call masks (.send type data)) (e.call (.send type data)) := by
  unfold Client.call Endpoint.call Client.send
  dsimp only
  rw [← synced.same.limit]
  by_cases kind : type = .text ∨ type = .binary
  · by_cases wrong : data.length > c.maxMessageSize ∨ (type = .text ∧ (!utf8 data) = true)
    · rw [if_neg (by tauto), if_pos wrong, if_neg]
      · exact synced.invalid _
      · rintro ⟨_, fits, text⟩
        rcases wrong with large | ⟨is, not_⟩
        · omega
        · rw [text is] at not_
          cases not_
    · have right : (type = .text ∨ type = .binary) ∧ data.length ≤ c.maxMessageSize ∧ (type = .text → utf8 data = true) := by
        refine ⟨kind, by omega, fun is => ?_⟩
        by_contra not_
        exact wrong (.inr ⟨is, by rw [Bool.not_eq_true', Bool.eq_false_iff]; exact not_⟩)
      rw [if_neg (by tauto), if_neg wrong, if_pos right]
      exact synced.sends _ data
  · rw [if_pos (by tauto), if_neg (fun all => kind all.1)]
    exact synced.invalid _

theorem Synced.ping (data : Bytes) :
    Keeps masks tail (c.call masks (.ping data)) (e.call (.ping data)) := by
  unfold Client.call Endpoint.call Client.ping
  dsimp only
  by_cases large : data.length > 125
  · rw [if_pos large, if_neg (by omega)]
    exact synced.invalid _
  · rw [if_neg large, if_pos (by omega)]
    exact synced.sends 9 data

end

def closes (masks : Nat → Mask) (payload : Bytes) (c : Client) : Client × Except Error Unit :=
  if c.closeSent then (c, .ok ()) else ({ c.writeFrame masks 8 payload with closeSent := true }, .ok ())

theorem Synced.closes (synced : Synced masks tail c e) (payload : Bytes) :
    Keeps masks tail ((c.guarded (closes masks payload)).1, (c.guarded (closes masks payload)).2.map fun _ => none)
      (e.close payload) := by
  unfold Endpoint.close
  rw [← synced.same.connected]
  cases connected : c.connected with
  | false =>
    rw [guarded_closed connected]
    exact synced.refused _
  | true =>
    rw [if_neg (by decide)]
    by_cases closed : c.closeSent = true
    · rw [guarded_ok connected (show WebSocket.closes masks payload c = _ from if_pos closed),
        if_pos (synced.same.closeSent.symm.trans closed)]
      exact ⟨synced, .inr rfl⟩
    · rw [guarded_ok connected (show WebSocket.closes masks payload c = _ from if_neg closed),
        if_neg (by rw [← synced.same.closeSent]; exact closed)]
      obtain ⟨same, awaits⟩ := synced.put connected 8 payload
      refine ⟨⟨⟨same.limit, same.connected, rfl, same.closeReceived, same.written⟩, fun _ => ?_⟩, .inr rfl⟩
      obtain ⟨begun, frames, reads, items, unread⟩ := awaits connected
      exact ⟨begun, frames, ⟨reads.input, ⟨reads.collects.type, reads.collects.data, reads.collects.fits⟩, reads.valid,
        reads.complete, reads.ends⟩, items, unread⟩

theorem Synced.close (synced : Synced masks tail c e) (code : Nat) (reason : Bytes) :
    Keeps masks tail (c.call masks (.close code reason)) (e.call (.close code reason)) := by
  unfold Client.call Endpoint.call Client.close
  dsimp only
  by_cases right : closeCode code = true ∧ reason.length ≤ 123 ∧ utf8 reason = true
  · rw [if_pos right, if_neg]
    · exact synced.closes _
    · rintro (code_ | large | text)
      · rw [right.1] at code_
        cases code_
      · omega
      · rw [right.2.2] at text
        cases text
  · rw [if_neg right, if_pos]
    · exact synced.invalid _
    · by_contra passes
      simp only [not_or, Bool.not_eq_true', Bool.not_eq_false] at passes
      exact right ⟨passes.1, by omega, passes.2.2⟩

theorem Synced.call (synced : Synced masks tail c e) (call : Call) : Keeps masks tail (c.call masks call) (e.call call) := by
  cases call with
  | receive => exact synced.receive
  | send type data => exact synced.send type data
  | ping data => exact synced.ping data
  | close code reason => exact synced.close code reason

def Client.calls (masks : Nat → Mask) : Client → List Call → List (Except Error (Option Message)) × Client
  | c, [] => ([], c)
  | c, call :: rest =>
      let r := c.call masks call
      let later := Client.calls masks r.1 rest
      (r.2 :: later.1, later.2)

def Endpoint.calls : Endpoint → List Call → List Outcome × Endpoint
  | e, [] => ([], e)
  | e, call :: rest =>
      let r := e.call call
      let later := Endpoint.calls r.1 rest
      (r.2 :: later.1, later.2)

theorem Synced.calls (synced : Synced masks tail c e) (calls : List Call) : List.Forall₂ Answers (c.calls masks calls).1
    (e.calls calls).1 ∧ Synced masks tail (c.calls masks calls).2 (e.calls calls).2 := by
  induction calls generalizing c e with
  | nil => exact ⟨.nil, synced⟩
  | cons call calls ih =>
    have kept := synced.call call
    obtain ⟨answers, after⟩ := ih kept.synced
    exact ⟨.cons kept.answers answers, after⟩

end Calls

end Nxt.WebSocket
