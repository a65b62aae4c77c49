/-
The drivers agree.

Three drivers work on a source: `evaluateSource` gives its values, `runSource` prints as it goes, and a session answers
one line after the other. Each goes through the expressions in a way of its own: `collectValues` gives up what it has at the
first error, `printValues` has printed it by then, and `answerAll` keeps the last value only.

- `Evaluates.printValues_eq`, `Evaluates.answerAll_eq`: what each way leaves behind of expressions that are evaluated in
  order, by induction over them. For `collectValues` this is `Evaluates.collectValues_eq`;
- `runSource_of_fatal`, `runSource_value`, `runSource_ast`: what a run leaves behind and how it ends;
- `answer_of_fatal`, `answer_value`, `answer_ast`: what a session shows for a line;
- logs: reading a source logs no stage of evaluating (`parseSource_events_isReading`), evaluating a tree logs its steps alone
  (`Expr.run_events_isVisit`), and reports add at most that they were not drawn (`worklog_showDiagnostics`);
- `converse_line`: a line that is typed is answered as the source it is, and the session goes on behind it. Lines are cut
  from the bytes of the input, and no character but the newline has the byte of a newline (`newline_notMem_textBytes`).

`ShowsValues`, `ShowsTrees` and `Answers` say what the agreement is: the text, the reports, the error and the log.

Main statement: `drivers_agree`.
-/
import Mathlib.Tactic
import Reckoner.Session
import Reckoner.Proofs.Outcome

namespace Reckoner

/-! ## Bytes of a text -/

def textBytes (text : String) : List UInt8 :=
  text.toUTF8.data.toList

theorem textBytes_eq_flatMap (text : String) : textBytes text = text.toList.flatMap String.utf8EncodeChar := by
  conv_lhs => rw [textBytes, ← String.ofList_toList (s := text), String.toUTF8_eq_toByteArray, String.toByteArray_ofList,
    List.utf8Encode, List.toList_data_toByteArray]

theorem textBytes_append (a b : String) : textBytes (a ++ b) = textBytes a ++ textBytes b := by
  simp [textBytes_eq_flatMap]

theorem decodeText_textBytes (text : String) : decodeText (textBytes text) = .ok text := by
  have hread : String.fromUTF8? text.toUTF8 = some text := by
    unfold String.fromUTF8?
    rw [String.toUTF8_eq_toByteArray, dif_pos text.isValidUTF8]
    rfl
  have hbytes : (⟨(textBytes text).toArray⟩ : ByteArray) = text.toUTF8 := rfl
  simp only [decodeText, hbytes, hread]

theorem textBytes_injective : Function.Injective textBytes := by
  intro a b h
  have hread := decodeText_textBytes a
  rw [h, decodeText_textBytes] at hread
  exact (Except.ok.inj hread).symm

/-- a character of more bytes than one has none below 128 -/
theorem eq_newline_of_mem_bytes {c : Char} (h : 10 ∈ String.utf8EncodeChar c) : c = '\n' := by
  have hbyte : ∀ n < 256, (10 : UInt8) = UInt8.ofNat n → n = 10 := by
    intro n hn heq
    have hmod := congrArg UInt8.toNat heq
    rw [UInt8.toNat_ofNat', Nat.mod_eq_of_lt hn] at hmod
    exact hmod.symm
  have hlarge : ∀ n, 128 ≤ n → n < 256 → (10 : UInt8) ≠ UInt8.ofNat n := by
    intro n hle hlt heq
    have hten := hbyte n hlt heq
    omega
  simp only [String.utf8EncodeChar] at h
  split_ifs at h with h1 h2 h3
  · exact Char.ext (UInt32.toNat_inj.1 (hbyte _ (by omega) (List.mem_singleton.1 h)))
  all_goals
    exfalso
    simp only [List.mem_cons, List.not_mem_nil, or_false] at h
  · rcases h with h | h <;> exact hlarge _ (by omega) (by omega) h
  · rcases h with h | h | h <;> exact hlarge _ (by omega) (by omega) h
  · rcases h with h | h | h | h <;> exact hlarge _ (by omega) (by omega) h

theorem newline_notMem_textBytes {text : String} (h : '\n' ∉ text.toList) : 10 ∉ textBytes text := by
  rw [textBytes_eq_flatMap]
  intro hmem
  obtain ⟨c, hc, hbyte⟩ := List.mem_flatMap.1 hmem
  exact h (eq_newline_of_mem_bytes hbyte ▸ hc)

/-! ## Logs -/

namespace Event

/-- whether an event is a step of evaluating a tree -/
def isVisit : Event → Bool
  | .visited _ | .applied .. => true
  | _ => false

/-- whether an event tells that a report was not drawn -/
def isUndrawn : Event → Bool
  | .undrawn .. => true
  | _ => false

/-- whether an event tells of cutting and reading a source -/
def isReading : Event → Bool
  | .entered .scanning | .entered .parsing | .cut _ | .reported _ | .lexed .. | .ignored _ | .parsed _ => true
  | _ => false

section
variable {ev : Event}

theorem isUndrawn_of_isVisit (h : ev.isVisit = true) : ev.isUndrawn = false := by
  cases ev <;> first | rfl | cases h

theorem not_evaluating_of_isReading (h : ev.isReading = true) :
    ev.isUndrawn = false ∧ ev.isVisit = false ∧ ev ≠ .entered .evaluating := by
  cases ev <;> first | cases h | skip
  all_goals exact ⟨rfl, rfl, by rintro ⟨⟩ <;> cases h⟩

end

end Event

theorem lex_events_isReading (s : Spellings) (source : String) : ∀ ev ∈ (lex s source).events, ev.isReading = true := by
  intro ev hev
  rcases List.mem_append.1 hev with hev | hev
  · obtain ⟨l, -, hl⟩ := List.mem_flatMap.1 hev
    rcases List.mem_append.1 hl with hl | hl
    · obtain ⟨t, -, rfl⟩ := List.mem_map.1 hl
      rfl
    · obtain ⟨d, -, rfl⟩ := List.mem_map.1 hl
      rfl
  · rw [List.mem_singleton.1 hev]
    rfl

theorem program_events_isReading (r : Reader) : ∀ ev ∈ r.program.events, ev.isReading = true := by
  intro ev hev
  rcases List.mem_append.1 hev with hev | hev
  · obtain ⟨d, -, rfl⟩ := List.mem_map.1 hev
    rfl
  · rw [List.mem_singleton.1 hev]
    rfl

/-- the log of cutting and reading a source tells of nothing else -/
theorem parseSource_events_isReading (c : Config) (source : String) :
    ∀ ev ∈ (parseSource c source).events, ev.isReading = true := by
  intro ev hev
  rcases List.mem_cons.1 hev with rfl | hev
  · rfl
  rcases List.mem_append.1 hev with hev | hev
  · exact lex_events_isReading _ _ ev hev
  rcases List.mem_cons.1 hev with rfl | hev
  · rfl
  · exact program_events_isReading _ ev hev

theorem Run.andThen_isVisit {r : Run} {next : Value → Run} (hr : ∀ ev ∈ r.events, ev.isVisit = true)
    (hnext : ∀ v, ∀ ev ∈ (next v).events, ev.isVisit = true) : ∀ ev ∈ (r.andThen next).events, ev.isVisit = true := by
  unfold Run.andThen
  split
  · next v _ => exact fun ev hev => (List.mem_append.1 hev).elim (hr ev) (hnext v ev)
  · exact hr

/-- evaluating a tree logs its visits and nothing else -/
theorem Expr.run_events_isVisit (e : Expr) : ∀ ev ∈ e.run.events, ev.isVisit = true := by
  have hafter {r : Run} (node : String) (h : ∀ ev ∈ r.events, ev.isVisit = true) :
      ∀ ev ∈ (r.after (.visited node)).events, ev.isVisit = true := List.forall_mem_cons.2 ⟨rfl, h⟩
  induction e with
  | literal c => exact hafter _ (by simp)
  | grouping a ih => exact hafter _ ih
  | unary f a ih => exact hafter _ (Run.andThen_isVisit ih (by simp))
  | binary a f b iha ihb =>
    refine hafter _ (Run.andThen_isVisit iha fun v => ?_)
    split
    · simp
    · split
      · exact ihb
      · exact Run.andThen_isVisit ihb fun w => by simp [Event.isVisit]
  | ternary a b c iha ihb ihc =>
    refine hafter _ (Run.andThen_isVisit iha fun v => ?_)
    split
    · exact ihb
    · exact ihc

theorem visits_isUndrawn (es : List Expr) : ∀ ev ∈ es.flatMap (·.run.events), ev.isUndrawn = false := by
  intro ev hev
  obtain ⟨e, -, he⟩ := List.mem_flatMap.1 hev
  exact Event.isUndrawn_of_isVisit (e.run_events_isVisit ev he)

namespace Output

/-- the log without the reports that were not drawn -/
def worklog (o : Output) : List Event :=
  o.events.filter (!·.isUndrawn)

theorem worklog_append (a b : Output) : (a ++ b).worklog = a.worklog ++ b.worklog :=
  List.filter_append ..

theorem worklog_eq_self {o : Output} (h : ∀ ev ∈ o.events, ev.isUndrawn = false) : o.worklog = o.events :=
  List.filter_eq_self.2 fun ev hev => by rw [h ev hev]; rfl

end Output

section
variable (draw : Drawing) (source : String) (file : Option String)

theorem worklog_showError (err : RuntimeError) : (showError draw source file err).worklog = [] := by
  refine List.filter_eq_nil_iff.2 fun ev hev => ?_
  obtain ⟨fault, rfl⟩ := (Report.show_stdout_events ..).2 ev hev
  exact Bool.false_ne_true

theorem worklog_showDiagnostics (ds : List Diagnostic) : (showDiagnostics draw source file ds).worklog = [] := by
  refine List.filter_eq_nil_iff.2 fun ev hev => ?_
  obtain ⟨fault, rfl⟩ := events_showDiagnostics _ _ _ _ ev hev
  exact Bool.false_ne_true

end

/-! ## Three ways through the expressions -/

def printedValues (vs : List Value) : String :=
  String.join (vs.map fun v => v.display ++ "\n")

def printedTrees (es : List Expr) : String :=
  String.join (es.map fun e => e.print ++ "\n")

theorem ofLines_values (vs : List Value) : Output.ofLines (vs.map Value.display) = { stdout := printedValues vs } := by
  simp [Output.ofLines, printedValues, Function.comp_def]

theorem ofLines_trees (es : List Expr) : Output.ofLines (es.map Expr.print) = { stdout := printedTrees es } := by
  simp [Output.ofLines, printedTrees, Function.comp_def]

section
variable (draw : Drawing) (source : String) {front es reached : List Expr} {vs : List Value} {err? : Option RuntimeError}

/-- **Printing as it goes:** expressions with values are printed in front of what the others leave behind. -/
theorem printValues_append (file : Option String) (h : List.Forall₂ (fun e v => e.evaluate = .ok v) front vs)
    (back : List Expr) :
    printValues draw source file (front ++ back) =
      ⟨⟨printedValues vs, [], front.flatMap (·.run.events)⟩ ++ (printValues draw source file back).output,
        (printValues draw source file back).error?⟩ := by
  induction h with
  | nil => exact congrArg (Ran.mk · _) (Output.empty_append _).symm
  | @cons e v front vs hv _ ih =>
    have hresult : e.run.result = .ok v := hv
    rw [List.cons_append, printValues]
    simp only [hresult, ih]
    refine congrArg (Ran.mk · _) (Output.ext ?_ ?_ ?_)
    · simp [Output.ofLines, printedValues, String.append_assoc]
    · simp
    · simp

theorem Evaluates.printValues_eq (h : Evaluates es reached vs err?) (file : Option String) :
    printValues draw source file es =
      ⟨⟨printedValues vs, [], reached.flatMap (·.run.events)⟩ ++ err?.elim {} (showError draw source file),
        err?.map .runtime⟩ := by
  cases h with
  | all hvalues =>
    have hall := printValues_append draw source file hvalues []
    rwa [List.append_nil] at hall
  | @upTo before after e _ err hes hvalues herror =>
    have hresult : e.run.result = .error err := herror
    rw [hes, printValues_append draw source file hvalues, printValues]
    simp only [hresult, ← Output.append_assoc]
    refine congrArg (Ran.mk · _) (congrArg (· ++ showError draw source file err) (Output.ext ?_ ?_ ?_))
    · simp
    · rfl
    · simp

/-- **Remembering the last:** after expressions with values, the last of them stands in place of the one before. -/
theorem answerAll_append (h : List.Forall₂ (fun e v => e.evaluate = .ok v) front vs) (last : Option Value)
    (back : List Expr) :
    Session.answerAll draw .value source last (front ++ back) =
      .ofEvents (front.flatMap (·.run.events)) ++ Session.answerAll draw .value source (vs.getLast?.or last) back := by
  induction h generalizing last with
  | nil => exact (Output.empty_append _).symm
  | @cons e v front vs hv _ ih =>
    have hresult : e.run.result = .ok v := hv
    have hlast : (v :: vs).getLast?.or last = vs.getLast?.or (some v) := by
      rw [List.getLast?_cons]
      cases vs.getLast? <;> rfl
    rw [List.cons_append, Session.answerAll, if_neg (by decide)]
    simp only [hresult, ih, hlast, List.flatMap_cons, Output.ofEvents_append, Output.append_assoc]

theorem Evaluates.answerAll_eq (h : Evaluates es reached vs err?) :
    Session.answerAll draw .value source none es =
      .ofEvents (reached.flatMap (·.run.events)) ++
        err?.elim { stdout := printedValues vs.getLast?.toList } (showError draw source none) := by
  cases h with
  | all hvalues =>
    have hall := answerAll_append draw source hvalues none []
    rwa [List.append_nil, Option.or_none, Session.answerAll, ofLines_values] at hall
  | @upTo before after e _ err hes hvalues herror =>
    have hresult : e.run.result = .error err := herror
    rw [hes, answerAll_append draw source hvalues, Session.answerAll, if_neg (by decide)]
    simp [hresult]

/-- where trees are shown, each is printed and none is evaluated -/
theorem answerAll_ast (es : List Expr) :
    Session.answerAll draw .ast source none es = { stdout := printedTrees es } := by
  rw [← ofLines_trees]
  induction es with
  | nil => rfl
  | cons e es ih =>
    rw [Session.answerAll, if_pos rfl, ih]
    exact (Output.ofLines_append [e.print] (es.map Expr.print)).symm

end

/-! ## Runs and answers -/

/-- what is left behind of reading a source: its log, and the reports of the diagnostics -/
def readingOutput (draw : Drawing) (c : Config) (source : String) (file : Option String) : Output :=
  .ofEvents (parseSource c source).events ++ showDiagnostics draw source file (parseSource c source).diagnostics

section
variable (draw : Drawing) (c : Config) (source : String) (file : Option String)

@[simp] theorem stdout_readingOutput : (readingOutput draw c source file).stdout = "" := by
  simp [readingOutput]

@[simp] theorem reports_readingOutput : (readingOutput draw c source file).reports =
    (showDiagnostics draw source file (parseSource c source).diagnostics).reports := by
  simp [readingOutput]

theorem worklog_readingOutput : (readingOutput draw c source file).worklog = (parseSource c source).events := by
  have hreading : (Output.ofEvents (parseSource c source).events).worklog = (parseSource c source).events :=
    Output.worklog_eq_self fun ev hev =>
      (Event.not_evaluating_of_isReading (parseSource_events_isReading c source ev hev)).1
  rw [readingOutput, Output.worklog_append, hreading, worklog_showDiagnostics, List.append_nil]

end

section
variable (draw : Drawing) {c : Config} {source : String} (file : Option String)

/-- what is read from a source does not depend on what is to be shown of it -/
theorem parseSource_emit (emit : Emit) : parseSource { c with emit } source = parseSource c source := rfl

theorem runSource_of_fatal {emit : Emit} (hemit : emit ≠ .tokens)
    (hfatal : hasFatal (parseSource c source).diagnostics = true) :
    runSource draw { c with emit } source file =
      ⟨readingOutput draw c source file, some (.diagnostics (parseSource c source).diagnostics)⟩ := by
  cases emit with
  | tokens => exact absurd rfl hemit
  | ast | value => simp only [runSource, parseSource_emit, hfatal, if_true, readingOutput]

theorem runSource_ast (hfatal : hasFatal (parseSource c source).diagnostics = false) :
    runSource draw { c with emit := .ast } source file =
      ⟨readingOutput draw c source file ++ { stdout := printedTrees (parseSource c source).expressions }, none⟩ := by
  simp only [runSource, parseSource_emit, hfatal, Bool.false_eq_true, if_false, if_true, ofLines_trees, readingOutput]

/-- a run that shows values, when the expressions are evaluated as far as `reached` -/
theorem runSource_value (hfatal : hasFatal (parseSource c source).diagnostics = false) {reached : List Expr}
    {vs : List Value} {err? : Option RuntimeError} (h : Evaluates (parseSource c source).expressions reached vs err?) :
    runSource draw { c with emit := .value } source file =
      ⟨readingOutput draw c source file ++
        ⟨printedValues vs, [], .entered .evaluating :: reached.flatMap (·.run.events)⟩ ++
          err?.elim {} (showError draw source file), err?.map .runtime⟩ := by
  simp only [runSource, parseSource_emit, hfatal, Bool.false_eq_true, if_false, reduceCtorEq, h.printValues_eq,
    ← Output.append_assoc]
  refine congrArg (Ran.mk · _) (congrArg (· ++ _) (Output.ext ?_ ?_ ?_))
  · simp [readingOutput]
  · simp [readingOutput]
  · simp [readingOutput]

theorem answer_of_fatal {emit : Emit} (hemit : emit ≠ .tokens)
    (hfatal : hasFatal (parseSource c source).diagnostics = true) :
    Session.answer draw { c with emit } source = readingOutput draw c source none := by
  cases emit with
  | tokens => exact absurd rfl hemit
  | ast | value => simp only [Session.answer, parseSource_emit, hfatal, if_true, readingOutput]

theorem answer_ast (hfatal : hasFatal (parseSource c source).diagnostics = false) :
    Session.answer draw { c with emit := .ast } source =
      readingOutput draw c source none ++ { stdout := printedTrees (parseSource c source).expressions } := by
  simp only [Session.answer, parseSource_emit, hfatal, Bool.false_eq_true, if_false, answerAll_ast, readingOutput]

/-- an answer that shows a value, when the expressions are evaluated as far as `reached` -/
theorem answer_value (hfatal : hasFatal (parseSource c source).diagnostics = false) {reached : List Expr}
    {vs : List Value} {err? : Option RuntimeError} (h : Evaluates (parseSource c source).expressions reached vs err?) :
    Session.answer draw { c with emit := .value } source =
      readingOutput draw c source none ++ (.ofEvents (reached.flatMap (·.run.events)) ++
        err?.elim { stdout := printedValues vs.getLast?.toList } (showError draw source none)) := by
  simp only [Session.answer, parseSource_emit, hfatal, Bool.false_eq_true, if_false, h.answerAll_eq, readingOutput]

end

/-! ## Lines of a session -/

namespace Session

/-- A source as it can be typed in a line of a session: on one line, trimmed, not empty, and not a word that ends the
session. -/
structure Typed (source : String) : Prop where
  newline : '\n' ∉ source.toList
  trimmed : Text.trim source.toList = source.toList
  ne_empty : source ≠ ""
  ne_exit : source ≠ "exit"
  ne_quit : source ≠ "quit"

theorem inputLines_newline {line : List UInt8} (h : 10 ∉ line) (rest : List UInt8) :
    inputLines (line ++ 10 :: rest) = (line ++ [10]) :: inputLines rest := by
  induction line with
  | nil => simp [inputLines]
  | cons b line ih =>
    have hb : b ≠ 10 := fun heq => h (heq ▸ List.mem_cons_self)
    simp [inputLines, hb, ih fun hmem => h (List.mem_cons_of_mem b hmem)]

theorem inputLines_last {line : List UInt8} (h : 10 ∉ line) (hne : line ≠ []) : inputLines line = [line] := by
  induction line with
  | nil => exact absurd rfl hne
  | cons b line ih =>
    have hb : b ≠ 10 := fun heq => h (heq ▸ List.mem_cons_self)
    by_cases hline : line = []
    · simp [inputLines, hb, hline]
    · simp [inputLines, hb, ih (fun hmem => h (List.mem_cons_of_mem b hmem)) hline]

section
variable (draw : Drawing) (c : Config) {source : String} (h : Typed source)
include h

/-- a line is answered, with or without a newline behind it -/
theorem reply_typed {line : String} (hline : line = source ∨ line = source ++ "\n") :
    reply draw c (textBytes line) = .goOn (answer draw c source) := by
  have htrim : Text.trim line.toList = source.toList := by
    rcases hline with rfl | rfl
    · exact h.trimmed
    · rw [String.toList_append]
      exact (Text.trim_concat (by decide) _).trans h.trimmed
  simp [reply, decodeText_textBytes, htrim, h.ne_empty, h.ne_exit, h.ne_quit]

/-- **A line that is typed is answered as the source it is,** and the session goes on with what is behind it. -/
theorem converse_line (rest : List UInt8) :
    converse draw c (inputLines (textBytes (source ++ "\n") ++ rest)) =
      { stdout := prompt } ++ answer draw c source ++ converse draw c (inputLines rest) := by
  have hbytes : textBytes (source ++ "\n") = textBytes source ++ [10] := by
    rw [textBytes_append]
    rfl
  have hreply := reply_typed draw c h (Or.inr rfl)
  rw [hbytes] at hreply ⊢
  rw [List.append_assoc, List.singleton_append, inputLines_newline (newline_notMem_textBytes h.newline), converse, hreply]

/-- the last line of the input may lack its newline -/
theorem converse_last :
    converse draw c (inputLines (textBytes source)) = { stdout := prompt } ++ answer draw c source ++ converse draw c [] := by
  have hne : textBytes source ≠ [] := fun hnil => h.ne_empty (@textBytes_injective source "" hnil)
  simp only [inputLines_last (newline_notMem_textBytes h.newline) hne, converse, reply_typed draw c h (Or.inl rfl)]

end

end Session

/-! ## Agreement -/

section
variable (draw : Drawing) (c : Config) (source : String) (file : Option String)

/-- A run that shows values agrees with the evaluation of the source. -/
structure ShowsValues (ran : Ran) : Prop where
  /-- they end with the same error, or both without one -/
  ends : ran.error? = (evaluateSource c source).error?
  /-- they log the same work -/
  log : ran.output.worklog = (evaluateSource c source).events
  /-- all values are printed, each on a line -/
  values : ∀ vs, (evaluateSource c source).result = .ok vs →
    List.Forall₂ (fun e v => e.evaluate = .ok v) (parseSource c source).expressions vs ∧
      ran.output.stdout = printedValues vs ∧
      ran.output.reports = (showDiagnostics draw source file (parseSource c source).diagnostics).reports
  /-- the values before a runtime error are printed, and the error is reported behind the diagnostics -/
  runtime : ∀ err, (evaluateSource c source).result = .error (.runtime err) →
    ∃ before e after vs, (parseSource c source).expressions = before ++ e :: after ∧
      List.Forall₂ (fun e v => e.evaluate = .ok v) before vs ∧ e.evaluate = .error err ∧
      ran.output.stdout = printedValues vs ∧
      ran.output.reports = (showDiagnostics draw source file (parseSource c source).diagnostics).reports ++
        (showError draw source file err).reports
  /-- with fatal diagnostics nothing is printed -/
  diagnostics : ∀ ds, (evaluateSource c source).result = .error (.diagnostics ds) →
    ds = (parseSource c source).diagnostics ∧ ran.output.stdout = "" ∧
      ran.output.reports = (showDiagnostics draw source file ds).reports

/-- A run that shows trees agrees with the evaluation of the source on the fatal diagnostics, and evaluates nothing. -/
structure ShowsTrees (ran : Ran) : Prop where
  /-- it fails on fatal diagnostics, and on nothing else -/
  fails_iff : ∀ err, ran.error? = some err ↔
    ∃ ds, err = .diagnostics ds ∧ (evaluateSource c source).result = .error (.diagnostics ds)
  prints : ran.error? = none → ran.output.stdout = printedTrees (parseSource c source).expressions
  prints_nothing : ran.error? ≠ none → ran.output.stdout = ""
  /-- it reports the diagnostics and no error -/
  reports : ran.output.reports = (showDiagnostics draw source file (parseSource c source).diagnostics).reports
  /-- it logs the work of cutting and reading the source -/
  log : ran.output.worklog = (parseSource c source).events
  /-- it never comes to evaluating, and visits no node of any tree -/
  evaluates_none : ∀ ev ∈ ran.output.events, ev ≠ .entered .evaluating ∧ ev.isVisit = false

/-- The answer of a session agrees with a run of the same source, or with its evaluation if values are shown. -/
structure Answers (emit : Emit) (shown : Output) : Prop where
  /-- tokens and trees are shown as by a run that is given no file -/
  as_run : emit = .tokens ∨ emit = .ast → shown = (runSource draw { c with emit } source none).output
  /-- what is printed is the same for a run of any file -/
  prints : emit = .tokens ∨ emit = .ast → ∀ file, shown.stdout = (runSource draw { c with emit } source file).output.stdout
  fatal : emit = .ast → hasFatal (parseSource c source).diagnostics = true → shown.stdout = ""
  /-- of values the last is printed -/
  last : emit = .value → ∀ vs v, (evaluateSource c source).result = .ok (vs ++ [v]) → shown.stdout = v.display ++ "\n"
  /-- nothing is printed if there is no last value -/
  nothing : emit = .value → (∀ vs v, (evaluateSource c source).result ≠ .ok (vs ++ [v])) → shown.stdout = ""
  /-- the same nodes are visited as in the evaluation -/
  visits : emit = .value → shown.worklog.filter Event.isVisit = (evaluateSource c source).events.filter Event.isVisit

theorem runSource_showsValues : ShowsValues draw c source file (runSource draw { c with emit := .value } source file) := by
  cases hfatal : hasFatal (parseSource c source).diagnostics with
  | true =>
    rw [runSource_of_fatal draw file (by decide) hfatal]
    have hevaluation := evaluateSource_of_fatal c source hfatal
    constructor
    · simp [Evaluation.error?, hevaluation]
    · rw [worklog_readingOutput, hevaluation]
    · simp [hevaluation]
    · simp [hevaluation]
    · intro ds hds
      rw [hevaluation] at hds
      cases hds
      exact ⟨rfl, stdout_readingOutput .., reports_readingOutput ..⟩
  | false =>
    obtain ⟨reached, vs, err?, h⟩ := exists_evaluates (parseSource c source).expressions
    have hevaluation := evaluateSource_of_evaluates c source hfatal h
    rw [runSource_value draw file hfatal h]
    have hvisits : (⟨printedValues vs, [], .entered .evaluating :: reached.flatMap (·.run.events)⟩ : Output).worklog =
        .entered .evaluating :: reached.flatMap (·.run.events) :=
      Output.worklog_eq_self (List.forall_mem_cons.2 ⟨rfl, visits_isUndrawn reached⟩)
    have hlog : (err?.elim {} (showError draw source file)).worklog = [] := by
      cases err? with
      | none => rfl
      | some err => exact worklog_showError draw source file err
    have hprinted : (err?.elim {} (showError draw source file)).stdout = "" := by
      cases err? with
      | none => rfl
      | some err => exact stdout_showError draw source file err
    constructor
    · rw [Evaluation.error?, hevaluation]
      cases err? <;> rfl
    · rw [Output.worklog_append, Output.worklog_append, worklog_readingOutput, hvisits, hlog, hevaluation, List.append_nil]
    · intro vs' hvs
      rw [hevaluation] at hvs
      cases h with
      | all hvalues =>
        cases hvs
        simp [hvalues]
      | upTo hes hvalues herror => cases hvs
    · intro err hresult
      rw [hevaluation] at hresult
      cases h with
      | all hvalues => cases hresult
      | @upTo before after e _ err' hes hvalues herror =>
        cases hresult
        exact ⟨before, e, after, vs, hes, hvalues, herror, by simp, by simp⟩
    · intro ds hds
      rw [hevaluation] at hds
      cases err? <;> cases hds

/-- what is left behind of reading a source has no trace of evaluating anything -/
theorem readingOutput_evaluates_none :
    ∀ ev ∈ (readingOutput draw c source file).events, ev ≠ .entered .evaluating ∧ ev.isVisit = false := by
  intro ev hev
  rcases List.mem_append.1 hev with hev | hev
  · obtain ⟨-, hvisit, hstage⟩ := Event.not_evaluating_of_isReading (parseSource_events_isReading c source ev hev)
    exact ⟨hstage, hvisit⟩
  · obtain ⟨fault, rfl⟩ := events_showDiagnostics _ _ _ _ ev hev
    exact ⟨nofun, rfl⟩

theorem runSource_showsTrees : ShowsTrees draw c source file (runSource draw { c with emit := .ast } source file) := by
  cases hfatal : hasFatal (parseSource c source).diagnostics with
  | true =>
    rw [runSource_of_fatal draw file (by decide) hfatal]
    refine ⟨fun err => ?_, nofun, fun _ => stdout_readingOutput .., reports_readingOutput .., worklog_readingOutput ..,
      readingOutput_evaluates_none draw c source file⟩
    simp [evaluateSource_of_fatal c source hfatal, eq_comm]
  | false =>
    rw [runSource_ast draw file hfatal]
    refine ⟨fun err => ?_, fun _ => ?_, fun h => absurd rfl h, ?_, ?_, fun ev hev => ?_⟩
    · simp [evaluateSource_eq_diagnostics_iff, hfatal]
    · simp
    · simp
    · rw [Output.worklog_append, worklog_readingOutput]
      exact List.append_nil _
    · rw [Output.events_append, List.append_nil] at hev
      exact readingOutput_evaluates_none draw c source file ev hev

/-- tokens are printed whatever the file is -/
theorem stdout_runSource_tokens : (runSource draw { c with emit := .tokens } source file).output.stdout =
    (runSource draw { c with emit := .tokens } source none).output.stdout := by
  simp [runSource]

/-- the answer that shows a value, when the expressions are evaluated as far as `reached` -/
theorem answer_last (hfatal : hasFatal (parseSource c source).diagnostics = false) {reached : List Expr}
    {vs : List Value} {err? : Option RuntimeError} (h : Evaluates (parseSource c source).expressions reached vs err?) :
    (Session.answer draw { c with emit := .value } source).stdout =
        err?.elim (printedValues vs.getLast?.toList) (fun _ => "") ∧
      (Session.answer draw { c with emit := .value } source).worklog =
        (parseSource c source).events ++ reached.flatMap (·.run.events) := by
  have hvisits : (Output.ofEvents (reached.flatMap (·.run.events))).worklog = reached.flatMap (·.run.events) :=
    Output.worklog_eq_self (visits_isUndrawn reached)
  rw [answer_value draw hfatal h, Output.worklog_append, Output.worklog_append, worklog_readingOutput, hvisits]
  cases err? with
  | none => exact ⟨by simp, by simp [Output.worklog]⟩
  | some err =>
    exact ⟨by simp, by simp [worklog_showError]⟩

theorem answer_answers (emit : Emit) : Answers draw c source emit (Session.answer draw { c with emit } source) := by
  cases emit with
  | tokens =>
    exact ⟨fun _ => rfl, fun _ file => (stdout_runSource_tokens draw c source file).symm, nofun, nofun, nofun, nofun⟩
  | ast =>
    cases hfatal : hasFatal (parseSource c source).diagnostics with
    | true =>
      rw [answer_of_fatal draw (by decide) hfatal]
      refine ⟨fun _ => ?_, fun _ file => ?_, fun _ _ => stdout_readingOutput .., nofun, nofun, nofun⟩
      · rw [runSource_of_fatal draw none (by decide) hfatal]
      · rw [runSource_of_fatal draw file (by decide) hfatal, stdout_readingOutput, stdout_readingOutput]
    | false =>
      rw [answer_ast draw hfatal]
      refine ⟨fun _ => ?_, fun _ file => ?_, fun _ h => ?_, nofun, nofun, nofun⟩
      · rw [runSource_ast draw none hfatal]
      · simp [runSource_ast draw file hfatal]
      · rw [hfatal] at h
        cases h
  | value =>
    cases hfatal : hasFatal (parseSource c source).diagnostics with
    | true =>
      rw [answer_of_fatal draw (by decide) hfatal]
      have hevaluation := evaluateSource_of_fatal c source hfatal
      refine ⟨by simp, by simp, nofun, fun _ vs v hok => ?_, fun _ _ => stdout_readingOutput .., fun _ => ?_⟩
      · rw [hevaluation] at hok
        cases hok
      · rw [worklog_readingOutput, hevaluation]
    | false =>
      obtain ⟨reached, vs, err?, h⟩ := exists_evaluates (parseSource c source).expressions
      have hevaluation := evaluateSource_of_evaluates c source hfatal h
      obtain ⟨hstdout, hlog⟩ := answer_last draw c source hfatal h
      refine ⟨by simp, by simp, nofun, fun _ vs' v hok => ?_, fun _ hnone => ?_, fun _ => ?_⟩
      · rw [hevaluation] at hok
        cases err? with
        | none =>
          obtain rfl := Except.ok.inj hok
          simp [hstdout, printedValues]
        | some err => cases hok
      · rw [hevaluation] at hnone
        cases err? with
        | none =>
          -- the values are none, or there is a last one
          rcases List.eq_nil_or_concat vs with rfl | ⟨vs, v, rfl⟩
          · exact hstdout
          · exact absurd (by rw [List.concat_eq_append]; rfl) (hnone vs v)
        | some err => exact hstdout
      · rw [hlog, hevaluation, List.filter_append, List.filter_append]
        rfl

end

/-- **The drivers agree.** For every drawing, all settings, every source and every name of its file:
- a run that shows values ends as the evaluation does and logs the same work. It prints all the values, each on a line, if
  there are values; those of the expressions before the one with the error, if there is a runtime error; and nothing if
  there are fatal diagnostics;
- a run that shows trees fails on those fatal diagnostics, and on nothing else. It prints the trees otherwise, and evaluates
  none of them: the log has no stage of evaluating, and no visit;
- a source that is typed as a line of a session, with its newline or at the end of the input, is answered, and the session
  goes on behind it. The answer shows what a run shows if tokens or trees are shown, so nothing on fatal diagnostics; and
  the last of the values, if values are shown and the evaluation gives any. -/
theorem drivers_agree (draw : Drawing) (c : Config) (source : String) (file : Option String) :
    ShowsValues draw c source file (runSource draw { c with emit := .value } source file) ∧
    ShowsTrees draw c source file (runSource draw { c with emit := .ast } source file) ∧
    (Session.Typed source → ∀ emit : Emit, ∃ shown : Output, Answers draw c source emit shown ∧
      (∀ rest : List UInt8,
        Session.converse draw { c with emit } (Session.inputLines (textBytes (source ++ "\n") ++ rest)) =
          { stdout := Session.prompt } ++ shown ++ Session.converse draw { c with emit } (Session.inputLines rest)) ∧
      Session.converse draw { c with emit } (Session.inputLines (textBytes source)) =
        { stdout := Session.prompt } ++ shown ++ Session.converse draw { c with emit } []) := by
  refine ⟨runSource_showsValues .., runSource_showsTrees .., fun htyped emit => ?_⟩
  exact ⟨_, answer_answers draw c source emit, Session.converse_line draw _ htyped, Session.converse_last draw _ htyped⟩

namespace Sample

/-- draws the message of a report, and nothing else -/
def headline : Drawing := fun r _ =>
  { text := r.message.title ++ ": " ++ r.message.text ++ "\n" }

/-- the error of `1 + 2; -nil` -/
def negation : RuntimeError :=
  { cause := .operandMismatch "a number" "nil", operator := "-", line := 1, column := 8, span := ⟨7, 8⟩ }

end Sample

/-- `1 + 2; -nil` has a value before a runtime error: a run that shows values prints it and reports the error, one that
shows trees prints two of them and evaluates none. `1; (2` has an open parenthesis: either run fails on it and prints
nothing. As a line of a session, `1 + 2; -nil` is answered with the two trees, or with no value. -/
theorem drivers_agree_line :
    ((runSource Sample.headline { emit := .value } "1 + 2; -nil" none).error? = some (.runtime Sample.negation) ∧
      ∃ vs, (runSource Sample.headline { emit := .value } "1 + 2; -nil" none).output.stdout = printedValues vs ∧
        printedValues vs = "3.0\n") ∧
    ((runSource Sample.headline { emit := .ast } "1 + 2; -nil" none).output.stdout = "(+ 1 2)\n(- nil)\n" ∧
      ∀ ev ∈ (runSource Sample.headline { emit := .ast } "1 + 2; -nil" none).output.events,
        ev ≠ .entered .evaluating ∧ ev.isVisit = false) ∧
    ((runSource Sample.headline { emit := .value } "1; (2" none).output.stdout = "" ∧
      (runSource Sample.headline { emit := .ast } "1; (2" none).error? =
        some (.diagnostics (parseSource {} "1; (2").diagnostics)) ∧
    Session.Typed "1 + 2; -nil" ∧
    (Session.run Sample.headline { emit := .ast } (textBytes ("1 + 2; -nil" ++ "\n"))).stdout =
      Session.banner ++ "> (+ 1 2)\n(- nil)\n> \n" ∧
    (Session.run Sample.headline { emit := .value } (textBytes ("1 + 2; -nil" ++ "\n"))).stdout =
      Session.banner ++ "> > \n" := by
  have htyped : Session.Typed "1 + 2; -nil" := by
    constructor <;> decide
  have herror : (evaluateSource {} "1 + 2; -nil").error? = some (.runtime Sample.negation) := by decide +kernel
  have hopen : (evaluateSource {} "1; (2").result = .error (.diagnostics (parseSource {} "1; (2").diagnostics) :=
    (evaluateSource_eq_diagnostics_iff {} "1; (2").2 ⟨by decide +kernel, rfl⟩
  obtain ⟨hvalues, htrees, hsession⟩ := drivers_agree Sample.headline {} "1 + 2; -nil" none
  obtain ⟨hvalues', htrees', -⟩ := drivers_agree Sample.headline {} "1; (2" none
  obtain ⟨before, e, after, vs, -, -, -, hstdout, -⟩ := hvalues.runtime _ (Evaluation.error?_eq_some_iff.1 herror)
  obtain ⟨trees, htrees_shown, htrees_line, -⟩ := hsession htyped .ast
  obtain ⟨last, hlast_shown, hlast_line, -⟩ := hsession htyped .value
  have hprinted : (runSource Sample.headline { emit := .ast } "1 + 2; -nil" none).output.stdout =
      "(+ 1 2)\n(- nil)\n" := (htrees.prints (by decide +kernel)).trans (by decide +kernel)
  have hshown : trees.stdout = "(+ 1 2)\n(- nil)\n" := (htrees_shown.prints (Or.inr rfl) none).trans hprinted
  have hnone : last.stdout = "" := by
    refine hlast_shown.nothing rfl fun vs v hok => ?_
    rw [Evaluation.error?, hok] at herror
    cases herror
  have htrees_line := htrees_line []
  have hlast_line := hlast_line []
  rw [List.append_nil] at htrees_line hlast_line
  refine ⟨⟨hvalues.ends.trans herror, vs, hstdout, hstdout.symm.trans (by decide +kernel)⟩,
    ⟨hprinted, htrees.evaluates_none⟩, ⟨(hvalues'.diagnostics _ hopen).2.1, (htrees'.fails_iff _).2 ⟨_, rfl, hopen⟩⟩,
    htyped, ?_, ?_⟩
  · simp only [Session.run, htrees_line, Output.stdout_append, hshown]
    decide
  · simp only [Session.run, hlast_line, Output.stdout_append, hnone]
    decide

end Reckoner
