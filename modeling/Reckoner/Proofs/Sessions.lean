/-
Sessions compose.

A session takes its input line by line, and no line leaves anything behind for the next one. Input is `Unbroken` if a
session goes on behind it: it is a text in whole lines, and none of them is a word that ends the session.

- `textBytes_eq_append_iff`: the byte of a newline is a newline wherever it is in a text, so the lines of a text are texts
  (`IsText.of_mem_splitOn`);
- `inputLines_append`: the lines of the input end at its newlines;
- `reply_of_ends`, `reply_of_stays`, `reply_newline`: a line ends the session or is answered, whether its newline is
  there or not;
- `converse_append`: what lines that are answered print, report and log stands in front of all that comes later.

This is so however reports are drawn.

Main statement: `sessions_compose`.
-/
import Mathlib.Tactic
import Reckoner.Proofs.Drivers

namespace Reckoner

/-! ## Texts in bytes -/

def IsText (bytes : List UInt8) : Prop :=
  ∃ text, textBytes text = bytes

theorem decodeText_eq_ok_iff {bytes : List UInt8} {text : String} :
    decodeText bytes = .ok text ↔ textBytes text = bytes := by
  constructor
  · intro h
    simp only [decodeText, String.fromUTF8?] at h
    split at h
    · next hread =>
      split at hread
      · cases hread
        cases h
        rfl
      · cases hread
    · cases h
  · rintro rfl
    exact decodeText_textBytes text

theorem decodeText_of_not_isText {bytes : List UInt8} (h : ¬ IsText bytes) :
    decodeText bytes = .error .notText := by
  unfold decodeText
  split
  · next text hread => exact absurd ⟨text, decodeText_eq_ok_iff.1 (by rw [decodeText, hread])⟩ h
  · rfl

/-- a byte of a newline belongs to one of the characters, and that one has no other byte -/
theorem exists_newline_of_bytes {cs : List Char} {a b : List UInt8}
    (h : cs.flatMap String.utf8EncodeChar = a ++ 10 :: b) :
    ∃ front back, cs = front ++ '\n' :: back ∧ front.flatMap String.utf8EncodeChar = a ∧
      back.flatMap String.utf8EncodeChar = b := by
  induction cs generalizing a with
  | nil => simp at h
  | cons c cs ih =>
    rw [List.flatMap_cons, List.append_eq_append_iff] at h
    -- the byte is behind those of the first character, or one of them
    rcases h with ⟨a', rfl, hrest⟩ | ⟨more, hc, hrest⟩
    · obtain ⟨front, back, rfl, rfl, rfl⟩ := ih hrest
      exact ⟨c :: front, back, rfl, rfl, rfl⟩
    cases more with
    | nil =>
      obtain ⟨front, back, rfl, hfront, rfl⟩ := ih (a := []) hrest.symm
      exact ⟨c :: front, back, rfl, by simpa [hfront] using hc, rfl⟩
    | cons byte more =>
      obtain ⟨rfl, rfl⟩ := List.cons.inj hrest
      obtain rfl := eq_newline_of_mem_bytes (hc ▸ List.mem_append_right a List.mem_cons_self)
      have hbytes : a ++ 10 :: more = [10] := hc.symm
      rcases List.append_eq_singleton_iff.1 hbytes with ⟨rfl, hmore⟩ | ⟨-, hmore⟩
      · obtain rfl := List.tail_eq_of_cons_eq hmore
        exact ⟨[], cs, rfl, rfl, rfl⟩
      · cases hmore

/-- **The byte of a newline is a newline** wherever it is among the bytes of a text. -/
theorem textBytes_eq_append_iff {text : String} {a b : List UInt8} :
    textBytes text = a ++ 10 :: b ↔
      ∃ front back, text = front ++ "\n" ++ back ∧ textBytes front = a ∧ textBytes back = b := by
  constructor
  · intro h
    rw [textBytes_eq_flatMap] at h
    obtain ⟨front, back, htext, rfl, rfl⟩ := exists_newline_of_bytes h
    refine ⟨String.ofList front, String.ofList back, String.ext ?_, ?_, ?_⟩ <;> simp [htext, textBytes_eq_flatMap]
  · rintro ⟨front, back, rfl, rfl, rfl⟩
    simp only [textBytes_append, List.append_assoc]
    rfl

theorem isText_nil : IsText [] := ⟨"", rfl⟩

theorem isText_append_iff {a b : List UInt8} : IsText (a ++ 10 :: b) ↔ IsText a ∧ IsText b := by
  constructor
  · rintro ⟨text, htext⟩
    obtain ⟨front, back, -, hfront, hback⟩ := textBytes_eq_append_iff.1 htext
    exact ⟨⟨front, hfront⟩, back, hback⟩
  · rintro ⟨⟨front, hfront⟩, back, hback⟩
    exact ⟨_, textBytes_eq_append_iff.2 ⟨front, back, rfl, hfront, hback⟩⟩

theorem IsText.of_mem_intercalate {lines : List (List UInt8)} (h : IsText ([10].intercalate lines)) :
    ∀ line ∈ lines, IsText line := by
  induction lines with
  | nil => simp
  | cons line lines ih =>
    cases lines with
    | nil => simpa using h
    | cons next lines =>
      have hcut : [10].intercalate (line :: next :: lines) = line ++ 10 :: [10].intercalate (next :: lines) := by simp
      rw [hcut, isText_append_iff] at h
      exact List.forall_mem_cons.2 ⟨h.1, ih h.2⟩

/-- the lines of a text are texts -/
theorem IsText.of_mem_splitOn {bytes line : List UInt8} (h : IsText bytes) (hline : line ∈ bytes.splitOn 10) :
    IsText line := by
  refine IsText.of_mem_intercalate ?_ line hline
  rwa [List.intercalate_splitOn]

namespace Session

/-! ## Lines -/

/-- **The input is taken in lines,** each with the newline at its end. -/
theorem inputLines_append (a b : List UInt8) :
    inputLines (a ++ 10 :: b) = (a.splitOn 10).map (· ++ [10]) ++ inputLines b := by
  induction a with
  | nil => simp [inputLines]
  | cons x a ih =>
    obtain ⟨line, lines, hlines⟩ := List.exists_cons_of_ne_nil (List.splitOn_ne_nil 10 a)
    rw [hlines] at ih
    rw [List.cons_append, inputLines, ih, List.splitOn_cons_eq_if_modifyHead, hlines]
    by_cases hx : x = 10
    · simp [hx]
    · simp [hx]

/-- a line with a word that ends a session, `exit` or `quit`, and at most blanks around it -/
def Leaves (line : List UInt8) : Prop :=
  ∃ text, textBytes text = line ∧ (Text.trim text.toList = "exit".toList ∨ Text.trim text.toList = "quit".toList)

theorem leaves_textBytes_iff {text : String} : Leaves (textBytes text) ↔
    Text.trim text.toList = "exit".toList ∨ Text.trim text.toList = "quit".toList := by
  constructor
  · rintro ⟨text', htext, hword⟩
    rwa [textBytes_injective htext] at hword
  · exact fun hword => ⟨text, rfl, hword⟩

/-- a line that ends a session, and the last word on it -/
inductive Ends (line : List UInt8) : Output → Prop where
  | leaves (h : Leaves line) : Ends line { stdout := "Goodbye!\n" }
  | unreadable (h : ¬ IsText line) :
    Ends line { reports := ["Error reading input: stream did not contain valid UTF-8\n"] }

/-- Input that a session goes on behind: it is empty or ends with a newline, it is a text, and none of its lines is a
word that ends the session. -/
structure Unbroken (input : List UInt8) : Prop where
  closed : input = [] ∨ input.getLast? = some 10
  isText : IsText input
  stays : ∀ line ∈ input.splitOn 10, ¬ Leaves line

/-! ## Replies -/

section
variable (draw : Drawing) (c : Config) {line : List UInt8}

theorem reply_of_leaves (h : Leaves line) : reply draw c line = .stop (.ofLines ["Goodbye!"]) := by
  obtain ⟨text, rfl, hword⟩ := h
  simp only [reply, decodeText_textBytes]
  rcases hword with hword | hword
  · simp [hword]
  · simp [hword]

theorem reply_of_not_isText (h : ¬ IsText line) :
    reply draw c line = .stop (.ofComplaint ("Error reading input: " ++ ReadFault.notText.message)) := by
  simp only [reply, decodeText_of_not_isText h]

/-- **A line that ends a session is answered with the last word on it.** -/
theorem reply_of_ends {last : Output} (h : Ends line last) : reply draw c line = .stop last := by
  cases h with
  | leaves h => exact reply_of_leaves draw c h
  | unreadable h =>
    rw [reply_of_not_isText draw c h]
    rfl

/-- any other line is answered, and the session goes on -/
theorem reply_of_stays (htext : IsText line) (h : ¬ Leaves line) : ∃ output, reply draw c line = .goOn output := by
  obtain ⟨text, rfl⟩ := htext
  simp only [reply, decodeText_textBytes]
  split_ifs with hblank hword
  · exact ⟨_, rfl⟩
  · refine absurd (leaves_textBytes_iff.2 ?_) h
    simp only [Bool.or_eq_true, decide_eq_true_eq] at hword
    refine hword.imp (fun heq => ?_) fun heq => ?_
    · rw [← heq, String.toList_ofList]
    · rw [← heq, String.toList_ofList]
  · exact ⟨_, rfl⟩

/-- the newline of a line is one of the blanks around it -/
theorem reply_newline (line : List UInt8) : reply draw c (line ++ [10]) = reply draw c line := by
  by_cases htext : IsText line
  · obtain ⟨text, rfl⟩ := htext
    have hbytes : textBytes text ++ [10] = textBytes (text ++ "\n") := (textBytes_append text "\n").symm
    have htrim : Text.trim (text ++ "\n").toList = Text.trim text.toList := by
      rw [String.toList_append]
      exact Text.trim_concat (by decide) _
    simp only [reply, hbytes, decodeText_textBytes, htrim]
  · have hline : ¬ IsText (line ++ [10]) := fun h => htext (isText_append_iff.1 h).1
    rw [reply_of_not_isText draw c htext, reply_of_not_isText draw c hline]

/-! ## Sessions -/

/-- **What is shown for lines that are answered stands in front of all that is shown later.** -/
theorem converse_append {front : List (List UInt8)} (h : ∀ line ∈ front, ∃ output, reply draw c line = .goOn output) :
    ∃ shown : Output, ∀ lines, converse draw c (front ++ lines) = shown ++ converse draw c lines := by
  induction front with
  | nil => exact ⟨{}, fun lines => (Output.empty_append _).symm⟩
  | cons line front ih =>
    rw [List.forall_mem_cons] at h
    obtain ⟨output, hreply⟩ := h.1
    obtain ⟨shown, hshown⟩ := ih h.2
    refine ⟨{ stdout := prompt } ++ output ++ shown, fun lines => ?_⟩
    simp only [List.cons_append, converse, hreply, hshown, Output.append_assoc]

/-- unbroken input is answered to its end, and the session goes on with what is behind it -/
theorem converse_unbroken {a : List UInt8} (h : Unbroken a) :
    ∃ shown : Output, ∀ b, converse draw c (inputLines (a ++ b)) = shown ++ converse draw c (inputLines b) := by
  obtain ⟨rfl | hlast, htext, hstays⟩ := h
  · exact ⟨{}, fun b => (Output.empty_append _).symm⟩
  obtain ⟨front, rfl⟩ := List.getLast?_eq_some_iff.1 hlast
  have hreply : ∀ line ∈ (front.splitOn 10).map (· ++ [10]), ∃ output, reply draw c line = .goOn output := by
    intro line hline
    obtain ⟨part, hpart, rfl⟩ := List.mem_map.1 hline
    rw [reply_newline]
    refine reply_of_stays draw c ((isText_append_iff.1 htext).1.of_mem_splitOn hpart) (hstays part ?_)
    rw [List.splitOn_append_cons_self]
    exact List.mem_append_left _ hpart
  obtain ⟨shown, hshown⟩ := converse_append draw c hreply
  refine ⟨shown, fun b => ?_⟩
  rw [List.append_assoc, List.singleton_append, inputLines_append, hshown]

theorem Ends.ne_nil {last : Output} (h : Ends line last) : line ≠ [] := by
  rintro rfl
  cases h with
  | leaves h =>
    have hword := (@leaves_textBytes_iff "").1 h
    revert hword
    decide
  | unreadable h => exact h isText_nil

theorem Ends.events_eq {last : Output} (h : Ends line last) : last.events = [] := by
  cases h <;> rfl

/-- a line that ends the session is the last to be read, whether there is more input or not -/
theorem converse_ends {last : Output} (hnewline : 10 ∉ line) (h : Ends line last) (b : List UInt8) :
    converse draw c (inputLines (line ++ 10 :: b)) = { stdout := prompt } ++ last ∧
    converse draw c (inputLines line) = { stdout := prompt } ++ last := by
  have hreply := reply_of_ends draw c h
  rw [inputLines_newline hnewline, inputLines_last hnewline h.ne_nil]
  simp only [converse, reply_newline, hreply, true_and]

end

/-- **Sessions compose.** Let the input `a` be unbroken: a text in whole lines, none of which ends the session.
- Behind `a`, a session shows for any input `b` what it shows for `b` alone, and it reports and logs the same. So no line
  of `a` has an influence on later ones, be it blank, or with diagnostics, a runtime error or values for an answer.
- If a line behind `a` ends the session, as it is `exit` or `quit` or no text, then nothing behind that line has an
  influence on the session, which shows the last word on that line and no more.
This holds of every drawing, so the reports are the texts that are drawn, whole and in order. -/
theorem sessions_compose (draw : Drawing) (c : Config) {a : List UInt8} (h : Unbroken a) :
    ∃ shown : String, (run draw c a).stdout = shown ++ "> \n" ∧
      (∀ b, ∃ more, (run draw c b).stdout = banner ++ more ∧ (run draw c (a ++ b)).stdout = shown ++ more ∧
        (run draw c (a ++ b)).reports = (run draw c a).reports ++ (run draw c b).reports ∧
        (run draw c (a ++ b)).events = (run draw c a).events ++ (run draw c b).events) ∧
      ∀ line last, 10 ∉ line → Ends line last → ∀ b,
        run draw c (a ++ line ++ 10 :: b) = run draw c (a ++ line) ∧
        (run draw c (a ++ line)).stdout = shown ++ "> " ++ last.stdout ∧
        (run draw c (a ++ line)).reports = (run draw c a).reports ++ last.reports ∧
        (run draw c (a ++ line)).events = (run draw c a).events := by
  obtain ⟨shown, hshown⟩ := converse_unbroken draw c h
  have hrun : ∀ b, run draw c (a ++ b) = { stdout := banner } ++ shown ++ converse draw c (inputLines b) := by
    intro b
    rw [run, hshown, Output.append_assoc]
  have halone : run draw c a = { stdout := banner } ++ shown ++ { stdout := "> \n" } := by
    have hnil := hrun []
    rwa [List.append_nil] at hnil
  refine ⟨banner ++ shown.stdout, ?_, fun b => ?_, fun line last hnewline hends b => ?_⟩
  · rw [halone]
    rfl
  · refine ⟨(converse draw c (inputLines b)).stdout, rfl, ?_, ?_, ?_⟩
    · rw [hrun]
      rfl
    · rw [hrun, halone]
      simp [run]
    · rw [hrun, halone]
      simp [run]
  · obtain ⟨hmore, hlast⟩ := converse_ends draw c hnewline hends b
    have hline : run draw c (a ++ line) = { stdout := banner } ++ shown ++ ({ stdout := prompt } ++ last) := by
      rw [hrun, hlast]
    refine ⟨?_, ?_, ?_, ?_⟩
    · rw [hline, List.append_assoc, hrun, hmore]
    · rw [hline]
      simp [prompt, String.append_assoc]
    · simp [hline, halone]
    · simp [hline, halone, hends.events_eq]

/-- Lines with a stray character, an open parenthesis, the negative of nil, and nothing at all leave no trace in the
answer to `1 + 2` behind them, and each is reported as by itself. A line with a byte that no text has ends the session:
the sum behind it is not read. -/
theorem sessions_compose_faulty :
    Unbroken (textBytes "@ 1\n(1\n-nil\n \n") ∧
    (run Sample.headline {} (textBytes "@ 1\n(1\n-nil\n \n" ++ textBytes "1 + 2")).stdout =
      banner ++ "> 1.0\n> > > > 3.0\n> \n" ∧
    (run Sample.headline {} (textBytes "@ 1\n(1\n-nil\n \n" ++ textBytes "1 + 2")).reports = [
      "unexpected-character: unexpected character '@'\n",
      "unclosed-parenthesis: expected ')' to close '('\n",
      "Runtime Error: operand type mismatch for operator '-' at line 1, column 1: expected a number, found nil\n"] ∧
    Ends [255] { reports := ["Error reading input: stream did not contain valid UTF-8\n"] } ∧
    run Sample.headline {} (textBytes "@ 1\n(1\n-nil\n \n" ++ [255] ++ 10 :: textBytes "1 + 2") =
      run Sample.headline {} (textBytes "@ 1\n(1\n-nil\n \n" ++ [255]) := by
  have hlines : (textBytes "@ 1\n(1\n-nil\n \n").splitOn 10 = ["@ 1", "(1", "-nil", " ", ""].map textBytes := by
    decide +kernel
  have ha : Unbroken (textBytes "@ 1\n(1\n-nil\n \n") := by
    refine ⟨Or.inr (by decide +kernel), ⟨_, rfl⟩, ?_⟩
    rw [hlines, List.forall_mem_map]
    simp only [leaves_textBytes_iff]
    decide +kernel
  have hends : Ends [255] { reports := ["Error reading input: stream did not contain valid UTF-8\n"] } := by
    have hread : decodeText [255] = .error .notText := by decide +kernel
    refine .unreadable fun ⟨text, htext⟩ => ?_
    rw [decodeText_eq_ok_iff.2 htext] at hread
    cases hread
  obtain ⟨shown, hshown, hbehind, hlast⟩ := sessions_compose Sample.headline {} ha
  obtain ⟨more, hmore, hboth, hreports, -⟩ := hbehind (textBytes "1 + 2")
  have hfaulty : (run Sample.headline {} (textBytes "@ 1\n(1\n-nil\n \n")).stdout =
      banner ++ "> 1.0\n> > > " ++ "> \n" := by decide +kernel
  have hsum : (run Sample.headline {} (textBytes "1 + 2")).stdout = banner ++ "> 3.0\n> \n" := by decide +kernel
  obtain rfl := (String.append_left_inj _).1 (hshown.symm.trans hfaulty)
  obtain rfl := (String.append_right_inj _).1 (hmore.symm.trans hsum)
  refine ⟨ha, ?_, hreports.trans (by decide +kernel), hends, (hlast [255] _ (by decide) hends (textBytes "1 + 2")).1⟩
  rw [hboth, String.append_assoc]
  rfl

end Session

end Reckoner
