import Nxt.Lib.Utf8
import Nxt.Wisp.Word

/- The names native code knows: the symbols a machine keeps as roots (eval.hpp) and the table of
   builtins (eval.cpp). A builtin's identity in a word is its place in the table; on a tape it
   is its name. -/
namespace Nxt.Wisp
open List

def ascii (s : String) : List UInt8 := s.toList.map fun c => UInt8.ofNat c.toNat

inductive Known where
  | quote | backquote | unquote | unquoteSplicing | function | ampRest | ampBody | ampOptional
  | binding | cond | defun | ifForm | fnForm | letForm | doForm | evalForm | prompt | resume
  | exp | val | error | boolean | character | cons | continuation | evaluator | external
  | integer | macroType | nullType | package | pin | record | string | symbol | vector
  | activeEvaluator | badFixnumDivision | badModulo | boundsError | bug | builtinFailure
  | continuationCallError | cyclicList | endOfFile | exhausted | fixnumOverflow | immutableCode
  | invalidArgumentCount | invalidBinding | invalidCallee | invalidCode | invalidContinuation
  | invalidEnvironment | invalidExpression | invalidFunction | invalidPackageUses
  | invalidParameters | invalidStringInputStream | invalidValue | keySpaceExhausted
  | lowLevelError | packageError | packageExists | programError | promptTagMissing | readError
  | typeMismatch | unboundVariable | undefinedFunction | undefinedPackage | unhandledError
  | stringInputStream
  deriving DecidableEq

def Known.all : List Known :=
  [.quote, .backquote, .unquote, .unquoteSplicing, .function, .ampRest, .ampBody, .ampOptional,
   .binding, .cond, .defun, .ifForm, .fnForm, .letForm, .doForm, .evalForm, .prompt, .resume,
   .exp, .val, .error, .boolean, .character, .cons, .continuation, .evaluator, .external,
   .integer, .macroType, .nullType, .package, .pin, .record, .string, .symbol, .vector,
   .activeEvaluator, .badFixnumDivision, .badModulo, .boundsError, .bug, .builtinFailure,
   .continuationCallError, .cyclicList, .endOfFile, .exhausted, .fixnumOverflow, .immutableCode,
   .invalidArgumentCount, .invalidBinding, .invalidCallee, .invalidCode, .invalidContinuation,
   .invalidEnvironment, .invalidExpression, .invalidFunction, .invalidPackageUses,
   .invalidParameters, .invalidStringInputStream, .invalidValue, .keySpaceExhausted,
   .lowLevelError, .packageError, .packageExists, .programError, .promptTagMissing, .readError,
   .typeMismatch, .unboundVariable, .undefinedFunction, .undefinedPackage, .unhandledError, .stringInputStream]

def Known.name : Known → String
  | .quote => "QUOTE"
  | .backquote => "BACKQUOTE"
  | .unquote => "UNQUOTE"
  | .unquoteSplicing => "UNQUOTE-SPLICING"
  | .function => "FUNCTION"
  | .ampRest => "&REST"
  | .ampBody => "&BODY"
  | .ampOptional => "&OPTIONAL"
  | .binding => "BINDING"
  | .cond => "COND"
  | .defun => "DEFUN"
  | .ifForm => "IF"
  | .fnForm => "FN"
  | .letForm => "LET"
  | .doForm => "DO"
  | .evalForm => "EVAL"
  | .prompt => "PROMPT"
  | .resume => "RESUME"
  | .exp => "EXP"
  | .val => "VAL"
  | .error => "ERROR"
  | .boolean => "BOOLEAN"
  | .character => "CHARACTER"
  | .cons => "CONS"
  | .continuation => "CONTINUATION"
  | .evaluator => "EVALUATOR"
  | .external => "EXTERNAL"
  | .integer => "INTEGER"
  | .macroType => "MACRO"
  | .nullType => "NULL"
  | .package => "PACKAGE"
  | .pin => "PIN"
  | .record => "RECORD"
  | .string => "STRING"
  | .symbol => "SYMBOL"
  | .vector => "VECTOR"
  | .activeEvaluator => "ACTIVE-EVALUATOR"
  | .badFixnumDivision => "BAD-FIXNUM-DIVISION"
  | .badModulo => "BAD-MODULO"
  | .boundsError => "BOUNDS-ERROR"
  | .bug => "BUG"
  | .builtinFailure => "BUILTIN-FAILURE"
  | .continuationCallError => "CONTINUATION-CALL-ERROR"
  | .cyclicList => "CYCLIC-LIST"
  | .endOfFile => "END-OF-FILE"
  | .exhausted => "EXHAUSTED"
  | .fixnumOverflow => "FIXNUM-OVERFLOW"
  | .immutableCode => "IMMUTABLE-CODE"
  | .invalidArgumentCount => "INVALID-ARGUMENT-COUNT"
  | .invalidBinding => "INVALID-BINDING"
  | .invalidCallee => "INVALID-CALLEE"
  | .invalidCode => "INVALID-CODE"
  | .invalidContinuation => "INVALID-CONTINUATION"
  | .invalidEnvironment => "INVALID-ENVIRONMENT"
  | .invalidExpression => "INVALID-EXPRESSION"
  | .invalidFunction => "INVALID-FUNCTION"
  | .invalidPackageUses => "INVALID-PACKAGE-USES"
  | .invalidParameters => "INVALID-PARAMETERS"
  | .invalidStringInputStream => "INVALID-STRING-INPUT-STREAM"
  | .invalidValue => "INVALID-VALUE"
  | .keySpaceExhausted => "KEY-SPACE-EXHAUSTED"
  | .lowLevelError => "LOW-LEVEL-ERROR"
  | .packageError => "PACKAGE-ERROR"
  | .packageExists => "PACKAGE-EXISTS"
  | .programError => "PROGRAM-ERROR"
  | .promptTagMissing => "PROMPT-TAG-MISSING"
  | .readError => "READ-ERROR"
  | .typeMismatch => "TYPE-MISMATCH"
  | .unboundVariable => "UNBOUND-VARIABLE"
  | .undefinedFunction => "UNDEFINED-FUNCTION"
  | .undefinedPackage => "UNDEFINED-PACKAGE"
  | .unhandledError => "UNHANDLED-ERROR"
  | .stringInputStream => "STRING-INPUT-STREAM"

inductive Builtin where
  | quote | function | fnForm | macroFn | ifForm | doForm | letForm | add | subtract | multiply
  | less | greater | eq | cons | head | tail | list | call | apply | symbolFunction
  | setSymbolFunction | setSymbolValue | setVariable | environment | setSymbolDynamic
  | callWithBinding | callWithPrompt | sendWithDefault | sendToWithDefault | getCc
  | composeContinuation | ktxHop | ktxEnv | ktxFun | ktxAcc | ktxArg | ktxPos | isTop | evalForm
  | divide | modulo | typeOf | prognify | macroexpand1 | isJet | isJetCtl | isSymbol | symbolName
  | symbolPackage | functionName | functionCallCount | code | functionParameters | setCode
  | setFunctionName | setHead | setTail | vector | vectorGet | vectorSet | vectorLength
  | vectorAppend | vectorFromList | record | isRecord | recordType | recordLength | recordGet
  | recordSet | codeOperations | makeCode | byteSize | stringLength | stringEqual | stringAppend
  | stringSearch | stringSlice | stringToUppercase | printToString | readFromString
  | readManyFromString | readFromStringStream | unhandledError | genkey | freshSymbol | isKey
  | makePinnedValue | releasePinnedValue | findPackage | packages | packageName | packageSymbols
  | packageUses | packageSetUses | definePackage | defpackage | inPackage | intern | run | step
  | gc | runExp | runWay | runVal | runErr
  deriving DecidableEq

def Builtin.all : List Builtin :=
  [.quote, .function, .fnForm, .macroFn, .ifForm, .doForm, .letForm, .add, .subtract, .multiply,
   .less, .greater, .eq, .cons, .head, .tail, .list, .call, .apply, .symbolFunction,
   .setSymbolFunction, .setSymbolValue, .setVariable, .environment, .setSymbolDynamic,
   .callWithBinding, .callWithPrompt, .sendWithDefault, .sendToWithDefault, .getCc,
   .composeContinuation, .ktxHop, .ktxEnv, .ktxFun, .ktxAcc, .ktxArg, .ktxPos, .isTop, .evalForm,
   .divide, .modulo, .typeOf, .prognify, .macroexpand1, .isJet, .isJetCtl, .isSymbol,
   .symbolName, .symbolPackage, .functionName, .functionCallCount, .code, .functionParameters,
   .setCode, .setFunctionName, .setHead, .setTail, .vector, .vectorGet, .vectorSet,
   .vectorLength, .vectorAppend, .vectorFromList, .record, .isRecord, .recordType, .recordLength,
   .recordGet, .recordSet, .codeOperations, .makeCode, .byteSize, .stringLength, .stringEqual,
   .stringAppend, .stringSearch, .stringSlice, .stringToUppercase, .printToString,
   .readFromString, .readManyFromString, .readFromStringStream, .unhandledError, .genkey,
   .freshSymbol, .isKey, .makePinnedValue, .releasePinnedValue, .findPackage, .packages,
   .packageName, .packageSymbols, .packageUses, .packageSetUses, .definePackage, .defpackage,
   .inPackage, .intern, .run, .step, .gc, .runExp, .runWay, .runVal, .runErr]

def Builtin.name : Builtin → String
  | .quote => "QUOTE"
  | .function => "FUNCTION"
  | .fnForm => "%FN"
  | .macroFn => "%MACRO-FN"
  | .ifForm => "IF"
  | .doForm => "DO"
  | .letForm => "LET"
  | .add => "+"
  | .subtract => "-"
  | .multiply => "*"
  | .less => "<"
  | .greater => ">"
  | .eq => "EQ?"
  | .cons => "CONS"
  | .head => "HEAD"
  | .tail => "TAIL"
  | .list => "LIST"
  | .call => "CALL"
  | .apply => "APPLY"
  | .symbolFunction => "SYMBOL-FUNCTION"
  | .setSymbolFunction => "SET-SYMBOL-FUNCTION!"
  | .setSymbolValue => "SET-SYMBOL-VALUE!"
  | .setVariable => "%SET!"
  | .environment => "ENV"
  | .setSymbolDynamic => "SET-SYMBOL-DYNAMIC!"
  | .callWithBinding => "CALL-WITH-BINDING"
  | .callWithPrompt => "CALL-WITH-PROMPT"
  | .sendWithDefault => "SEND-WITH-DEFAULT!"
  | .sendToWithDefault => "SEND-TO-WITH-DEFAULT!"
  | .getCc => "GET/CC"
  | .composeContinuation => "COMPOSE-CONTINUATION"
  | .ktxHop => "KTX-HOP"
  | .ktxEnv => "KTX-ENV"
  | .ktxFun => "KTX-FUN"
  | .ktxAcc => "KTX-ACC"
  | .ktxArg => "KTX-ARG"
  | .ktxPos => "KTX-POS"
  | .isTop => "TOP?"
  | .evalForm => "EVAL"
  | .divide => "/"
  | .modulo => "MOD"
  | .typeOf => "TYPE-OF"
  | .prognify => "PROGNIFY"
  | .macroexpand1 => "MACROEXPAND-1"
  | .isJet => "JET?"
  | .isJetCtl => "JET-CTL?"
  | .isSymbol => "SYMBOL?"
  | .symbolName => "SYMBOL-NAME"
  | .symbolPackage => "SYMBOL-PACKAGE"
  | .functionName => "FUNCTION-NAME"
  | .functionCallCount => "FUNCTION-CALL-COUNT"
  | .code => "CODE"
  | .functionParameters => "FUNCTION-PARAMETERS"
  | .setCode => "SET-CODE!"
  | .setFunctionName => "SET-FUNCTION-NAME!"
  | .setHead => "SET-HEAD!"
  | .setTail => "SET-TAIL!"
  | .vector => "VECTOR"
  | .vectorGet => "VECTOR-GET"
  | .vectorSet => "VECTOR-SET!"
  | .vectorLength => "VECTOR-LENGTH"
  | .vectorAppend => "VECTOR-APPEND"
  | .vectorFromList => "VECTOR-FROM-LIST"
  | .record => "RECORD"
  | .isRecord => "RECORD?"
  | .recordType => "RECORD-TYPE"
  | .recordLength => "RECORD-LENGTH"
  | .recordGet => "RECORD-GET"
  | .recordSet => "RECORD-SET!"
  | .codeOperations => "CODE-OPERATIONS"
  | .makeCode => "MAKE-CODE"
  | .byteSize => "BYTE-SIZE"
  | .stringLength => "STRING-LENGTH"
  | .stringEqual => "STRING-EQUAL?"
  | .stringAppend => "STRING-APPEND"
  | .stringSearch => "STRING-SEARCH"
  | .stringSlice => "STRING-SLICE"
  | .stringToUppercase => "STRING-TO-UPPERCASE"
  | .printToString => "PRINT-TO-STRING"
  | .readFromString => "READ-FROM-STRING"
  | .readManyFromString => "READ-MANY-FROM-STRING"
  | .readFromStringStream => "READ-FROM-STRING-STREAM!"
  | .unhandledError => "UNHANDLED-ERROR"
  | .genkey => "GENKEY!"
  | .freshSymbol => "FRESH-SYMBOL!"
  | .isKey => "KEY?"
  | .makePinnedValue => "MAKE-PINNED-VALUE"
  | .releasePinnedValue => "RELEASE-PINNED-VALUE!"
  | .findPackage => "FIND-PACKAGE"
  | .packages => "PACKAGES"
  | .packageName => "PACKAGE-NAME"
  | .packageSymbols => "PACKAGE-SYMBOLS"
  | .packageUses => "PACKAGE-USES"
  | .packageSetUses => "PACKAGE-SET-USES!"
  | .definePackage => "%DEFPACKAGE"
  | .defpackage => "DEFPACKAGE"
  | .inPackage => "IN-PACKAGE"
  | .intern => "INTERN"
  | .run => "RUN"
  | .step => "STEP!"
  | .gc => "GC"
  | .runExp => "RUN-EXP"
  | .runWay => "RUN-WAY"
  | .runVal => "RUN-VAL"
  | .runErr => "RUN-ERR"

def Builtin.control : Builtin → Bool
  | .quote | .function | .fnForm | .macroFn | .ifForm | .doForm | .letForm | .defpackage
  | .inPackage => true
  | _ => false

def Known.bytes (k : Known) : List UInt8 := ascii k.name

def Builtin.bytes (b : Builtin) : List UInt8 := ascii b.name

theorem Known.mem_all (k : Known) : k ∈ Known.all := by cases k <;> decide

def encoded (s : String) : List UInt8 := s.toByteArray.data.toList

def lowOnly (s : String) : Bool := (encoded s).all fun b => b.toNat.blt 0x80

theorem utf8EncodeChar_low {c : Char} (low : ∀ b ∈ String.utf8EncodeChar c, b.toNat < 0x80) :
    String.utf8EncodeChar c = [UInt8.ofNat c.toNat] := by
  have encodes := Lib.encodes_char c
  generalize String.utf8EncodeChar c = bytes at encodes low ⊢
  generalize same : c.val.toNat = v at encodes
  cases encodes with
  | one => rw [Char.toNat, same, UInt8.ofNat_toNat]
  | two lead => exact absurd (low _ mem_cons_self) (by omega)
  | three lead => exact absurd (low _ mem_cons_self) (by omega)
  | four lead => exact absurd (low _ mem_cons_self) (by omega)

theorem ascii_eq {s : String} (low : lowOnly s = true) : ascii s = encoded s := by
  have same : encoded s = s.toList.flatMap String.utf8EncodeChar := by
    rw [encoded, ← String.utf8Encode_toList, List.utf8Encode, toList_data_toByteArray]
  rw [lowOnly, same, all_eq_true] at low
  rw [ascii, same]
  generalize s.toList = chars at low ⊢
  induction chars with
  | nil => rfl
  | cons c rest ih =>
    rw [flatMap_cons] at low
    have first : String.utf8EncodeChar c = [UInt8.ofNat c.toNat] := utf8EncodeChar_low fun b held =>
      Nat.blt_eq.mp (low b (mem_append_left _ held))
    rw [map_cons, flatMap_cons, first, ih fun b held => low b (mem_append_right _ held)]
    rfl

theorem Known.bytes_eq (k : Known) : k.bytes = encoded k.name := by
  have low : ∀ k ∈ Known.all, lowOnly k.name = true := by decide +kernel
  exact ascii_eq (low k (Known.mem_all k))

theorem Builtin.bytes_eq {b : Builtin} (held : b ∈ Builtin.all) : b.bytes = encoded b.name := by
  have low : ∀ b ∈ Builtin.all, lowOnly b.name = true := by decide +kernel
  exact ascii_eq (low b held)

/-- Texts as numbers, which one comparison tells apart. -/
def numeral (text : List UInt8) : Nat := text.foldl (fun n b => 256 * n + b.toNat) 1

theorem Known.nodup_bytes : (Known.all.map Known.bytes).Nodup := by
  have distinct : (Known.all.map fun k => numeral (encoded k.name)).Nodup := by decide +kernel
  rw [map_congr_left fun k _ => Known.bytes_eq k]
  exact List.Nodup.of_map numeral (by rwa [map_map])

theorem Known.bytes_injective {j k : Known} (same : j.bytes = k.bytes) : j = k :=
  inj_on_of_nodup_map Known.nodup_bytes (Known.mem_all j) (Known.mem_all k) same

theorem Builtin.nodup_bytes : (Builtin.all.map Builtin.bytes).Nodup := by
  have distinct : (Builtin.all.map fun b => numeral (encoded b.name)).Nodup := by decide +kernel
  rw [map_congr_left fun b held => Builtin.bytes_eq held]
  exact List.Nodup.of_map numeral (by rwa [map_map])

end Nxt.Wisp
