import Scriptlet.Repl
import Scriptlet.Proofs.Eval.Depth
import Scriptlet.Proofs.Eval.Termination
import Scriptlet.Proofs.Session.Concatenation
import Scriptlet.Proofs.Session.Literals

/-!
# What the interactive loop shows

The loop runs the lines of its input one after another, as a session runs source texts, so long as
the runs end. Its transcript is put together from the reports of these runs: a prompt in front of
each line, what the line gives, and one more prompt where the input ends, in front of the first line
that is no text, or in front of the first line whose run does not end.

The lines of an input are described by `AreLines`, without the recursion that finds them. A line is
a text if it is the bytes of one. Line ends are single bytes in UTF-8, and no other character has
such a byte, so the lines of a text are texts (`exists_texts`).

All of it follows from one law, `runLines_append`: a list of lines that starts with texts whose runs
end runs the texts, and goes on with the rest in the session that they leave. Whether a run ends is
a matter of how many calls may nest, but a loop that ends does so under every larger bound, with the
same transcript.
-/

namespace Scriptlet.Repl

/-! ## Lines -/

def lineEnd : UInt8 := 10

/-- The input is cut into lines: no line is empty, a line end stands nowhere but at the end of a
line, and every line but the last has one. -/
structure AreLines (input : List UInt8) (lines : List (List UInt8)) : Prop where
  joined : lines.flatten = input
  nonempty : ∀ line ∈ lines, line ≠ []
  unbroken : ∀ line ∈ lines, lineEnd ∉ line.dropLast
  ended : ∀ line ∈ lines.dropLast, line.getLast? = some lineEnd

/-- A line is cut off at its end, or at the end of the input. -/
theorem splitLines_append {line : List UInt8} (hne : line ≠ []) (hline : lineEnd ∉ line.dropLast)
    {rest : List UInt8} (hend : line.getLast? = some lineEnd ∨ rest = []) :
    splitLines (line ++ rest) = line :: splitLines rest := by
  induction line with
  | nil => exact absurd rfl hne
  | cons b line ih =>
    rw [List.cons_append, splitLines]
    rcases line with _ | ⟨c, line⟩
    · rcases hend with hend | rfl
      · have hb : b = 10 := Option.some.inj hend
        rw [if_pos hb, List.nil_append]
      · by_cases hb : b = 10
        · rw [if_pos hb]
          rfl
        · rw [if_neg hb]
          rfl
    · rw [List.dropLast_cons_cons, List.mem_cons, not_or] at hline
      rw [List.getLast?_cons_cons] at hend
      have hb : b ≠ 10 := fun hb ↦ hline.1 hb.symm
      rw [if_neg hb, ih (List.cons_ne_nil c line) hline.2 hend]

theorem splitLines_of_areLines {input : List UInt8} {lines : List (List UInt8)}
    (h : AreLines input lines) : splitLines input = lines := by
  obtain ⟨rfl, hne, hunbroken, hended⟩ := h
  induction lines with
  | nil => rfl
  | cons line lines ih =>
    obtain ⟨hline, hlines⟩ := List.forall_mem_cons.mp hne
    obtain ⟨hinner, hinners⟩ := List.forall_mem_cons.mp hunbroken
    rcases lines with _ | ⟨next, lines⟩
    · rw [List.flatten_cons, splitLines_append hline hinner (.inr List.flatten_nil)]
      rfl
    · rw [List.dropLast_cons_cons] at hended
      obtain ⟨hend, hends⟩ := List.forall_mem_cons.mp hended
      rw [List.flatten_cons, splitLines_append hline hinner (.inl hend), ih hlines hinners hends]

/-- A byte in front of a cut input begins the first line, or is a line of its own. -/
theorem areLines_splitLines (input : List UInt8) : AreLines input (splitLines input) := by
  induction input with
  | nil => exact ⟨rfl, by simp [splitLines], by simp [splitLines], by simp [splitLines]⟩
  | cons b rest ih =>
    rw [splitLines]
    obtain ⟨hjoined, hne, hunbroken, hended⟩ := ih
    by_cases hb : b = 10
    · rw [if_pos hb]
      refine ⟨by simp [hjoined], ?_, ?_, ?_⟩
      · exact List.forall_mem_cons.mpr ⟨by simp, hne⟩
      · exact List.forall_mem_cons.mpr ⟨by simp, hunbroken⟩
      · rcases hlines : splitLines rest with _ | ⟨line, lines⟩
        · simp
        · rw [hlines] at hended
          rw [List.dropLast_cons_cons]
          exact List.forall_mem_cons.mpr ⟨by simp [hb, lineEnd], hended⟩
    · -- the byte goes to the front of the first line, which keeps its end
      rw [if_neg hb]
      rcases hlines : splitLines rest with _ | ⟨line, lines⟩ <;>
        rw [hlines] at hjoined hne hunbroken hended
      · refine ⟨by simp [← hjoined], by simp, by simp, by simp⟩
      · obtain ⟨hline, hothers⟩ := List.forall_mem_cons.mp hne
        obtain ⟨c, cs, rfl⟩ := List.exists_cons_of_ne_nil hline
        obtain ⟨hinner, hinners⟩ := List.forall_mem_cons.mp hunbroken
        refine ⟨by simp [← hjoined], ?_, ?_, ?_⟩
        · exact List.forall_mem_cons.mpr ⟨by simp, hothers⟩
        · refine List.forall_mem_cons.mpr ⟨?_, hinners⟩
          rw [List.dropLast_cons_cons, List.mem_cons, not_or]
          exact ⟨fun heq ↦ hb heq.symm, hinner⟩
        · rcases lines with _ | ⟨next, lines⟩
          · simp
          · rw [List.dropLast_cons_cons] at hended ⊢
            obtain ⟨hend, hends⟩ := List.forall_mem_cons.mp hended
            exact List.forall_mem_cons.mpr ⟨by rwa [List.getLast?_cons_cons], hends⟩

/-- Every input has lines, and they are what the loop cuts it into. -/
theorem areLines_iff {input : List UInt8} {lines : List (List UInt8)} :
    AreLines input lines ↔ splitLines input = lines :=
  ⟨splitLines_of_areLines, fun h ↦ h ▸ areLines_splitLines input⟩

/-- Behind a line end the cut starts anew. -/
theorem splitLines_append_of_ended {a : List UInt8} (h : a.getLast? = some lineEnd)
    (b : List UInt8) : splitLines (a ++ b) = splitLines a ++ splitLines b := by
  induction a with
  | nil => cases h
  | cons c a ih =>
    rw [List.cons_append, splitLines, splitLines]
    rcases a with _ | ⟨d, a⟩
    · have hc : c = 10 := Option.some.inj h
      rw [if_pos hc, if_pos hc, List.nil_append]
      rfl
    · rw [List.getLast?_cons_cons] at h
      rw [ih h]
      split
      · rfl
      · rcases hlines : splitLines (d :: a) with _ | ⟨line, lines⟩
        · have hjoined := (areLines_splitLines (d :: a)).joined
          rw [hlines] at hjoined
          cases hjoined
        · rfl

/-! ## Texts -/

def bytesOf (text : String) : List UInt8 := text.toUTF8.data.toList

theorem bytesOf_eq_flatMap (text : String) :
    bytesOf text = text.toList.flatMap String.utf8EncodeChar := by
  rw [bytesOf, String.toUTF8_eq_toByteArray, ← String.utf8Encode_toList]
  simp [List.utf8Encode]

theorem decode?_eq_some_iff {line : List UInt8} {text : String} :
    decode? line = some text ↔ line = bytesOf text := by
  rw [decode?, String.fromUTF8?]
  constructor
  · intro h
    split at h
    · rw [← Option.some.inj h]
      rfl
    · cases h
  · rintro rfl
    have hbytes : ByteArray.mk (bytesOf text).toArray = text.toByteArray := rfl
    have hvalid : text.toByteArray.IsValidUTF8 := text.isValidUTF8
    rw [hbytes, dif_pos hvalid]
    rfl

theorem decode?_eq_none_iff {line : List UInt8} :
    decode? line = none ↔ ∀ text, line ≠ bytesOf text := by
  simp only [Option.eq_none_iff_forall_ne_some, ne_eq, decode?_eq_some_iff]

/-- No character but the line end has the byte of one. -/
theorem lineEnd_not_mem_utf8EncodeChar {c : Char} (h : c ≠ '\n') :
    lineEnd ∉ String.utf8EncodeChar c := by
  have hval : c.val.toNat ≠ 10 := fun hval ↦ h (Char.ext (UInt32.toNat_inj.mp hval))
  rw [lineEnd]
  -- one byte is the character itself, and of several each has its highest bit set
  fun_cases String.utf8EncodeChar c <;>
    simp only [List.mem_cons, List.not_mem_nil, or_false, ← UInt8.toNat_inj, UInt8.toNat_ofNat',
      UInt8.reduceToNat] <;>
    omega

/-- Bytes without a line end belong to the line that follows. -/
theorem splitLines_append_of_not_mem {bytes : List UInt8} (hne : bytes ≠ [])
    (h : lineEnd ∉ bytes) (rest : List UInt8) :
    splitLines (bytes ++ rest) = (bytes ++ (splitLines rest).head?.getD [])
      :: (splitLines rest).tail := by
  induction bytes with
  | nil => exact absurd rfl hne
  | cons b bytes ih =>
    rw [List.mem_cons, not_or] at h
    have hb : b ≠ 10 := fun hb ↦ h.1 hb.symm
    rw [List.cons_append, splitLines, if_neg hb]
    rcases bytes with _ | ⟨c, bytes⟩
    · rw [List.nil_append]
      split <;> simp_all
    · rw [ih (List.cons_ne_nil c bytes) h.2]
      rfl

theorem exists_texts (text : String) : ∃ texts : List String,
    splitLines (bytesOf text) = texts.map bytesOf := by
  suffices h : ∀ cs : List Char, ∃ pieces : List (List Char),
      splitLines (cs.flatMap String.utf8EncodeChar)
        = pieces.map (·.flatMap String.utf8EncodeChar) by
    obtain ⟨pieces, hpieces⟩ := h text.toList
    refine ⟨pieces.map String.ofList, ?_⟩
    rw [bytesOf_eq_flatMap, hpieces, List.map_map]
    simp [bytesOf_eq_flatMap]
  intro cs
  -- a character other than the line end extends the first line, all its bytes at once
  induction cs with
  | nil => exact ⟨[], rfl⟩
  | cons c cs ih =>
    obtain ⟨pieces, hpieces⟩ := ih
    rw [List.flatMap_cons]
    by_cases hc : c = '\n'
    · have hbyte : String.utf8EncodeChar '\n' = [lineEnd] := by decide
      refine ⟨['\n'] :: pieces, ?_⟩
      rw [hc, hbyte, splitLines_append (by decide) (by decide) (.inl rfl), hpieces]
      simp [hbyte]
    · refine ⟨(c :: pieces.head?.getD []) :: pieces.tail, ?_⟩
      rw [splitLines_append_of_not_mem String.utf8EncodeChar_ne_nil
        (lineEnd_not_mem_utf8EncodeChar hc), hpieces]
      rcases pieces with _ | ⟨piece, pieces⟩ <;> simp

/-! ## Runs -/

/-- The transcript with events in front. -/
def Transcript.behind (events : List Event) (t : Transcript) : Transcript :=
  { t with events := events ++ t.events }

/-- What is seen of a line: the prompt in front of it, and then what its run gives. -/
def lineEvents (r : Report (Option Value)) : List Event := .prompt :: Event.ofReport r

section Runs

variable (host : Host) (depth : Nat) (s : Session)

/-- Lines that are texts are run, and if the runs end the loop goes on with the rest. -/
theorem runLines_append {texts : List String}
    (hends : ∀ r ∈ (s.runAll host depth texts).2, r.ends = true) (rest : List (List UInt8)) :
    runLines host depth s (texts.map bytesOf ++ rest)
      = (runLines host depth (s.runAll host depth texts).1 rest).behind
          ((s.runAll host depth texts).2.flatMap lineEvents) := by
  induction texts generalizing s with
  | nil => rfl
  | cons text texts ih =>
    have hdecode : decode? (bytesOf text) = some text := decode?_eq_some_iff.mpr rfl
    simp only [Session.runAll, List.forall_mem_cons] at hends
    obtain ⟨hfirst, hothers⟩ := hends
    have hline : runLine host depth s (bytesOf text)
        = ⟨Event.ofReport (s.run host depth text).2, (s.run host depth text).1, none⟩ := by
      simp only [runLine, hdecode]
      rw [if_pos hfirst]
    rw [List.map_cons, List.cons_append, runLines, hline]
    simp only [ih _ hothers]
    simp [Session.runAll, Transcript.behind, lineEvents]

theorem runLines_texts {texts : List String}
    (hends : ∀ r ∈ (s.runAll host depth texts).2, r.ends = true) :
    runLines host depth s (texts.map bytesOf)
      = ⟨(s.runAll host depth texts).2.flatMap lineEvents ++ [.prompt],
          (s.runAll host depth texts).1, .finished⟩ := by
  have hrun := runLines_append host depth s hends []
  rw [List.append_nil] at hrun
  exact hrun

/-- The loop stops in front of a line that is no text. -/
theorem runLines_invalid {bad : List UInt8} (hbad : ∀ text, bad ≠ bytesOf text)
    (rest : List (List UInt8)) :
    runLines host depth s (bad :: rest) = ⟨[.prompt], s, .invalidLine⟩ := by
  rw [runLines, runLine, decode?_eq_none_iff.mpr hbad]

/-- The loop comes no further than a line whose run does not end. -/
theorem runLines_endless {text : String} (h : (s.run host depth text).2.ends = false)
    (rest : List (List UInt8)) :
    runLines host depth s (bytesOf text :: rest)
      = ⟨lineEvents (s.run host depth text).2, (s.run host depth text).1, .endless⟩ := by
  have hdecode : decode? (bytesOf text) = some text := decode?_eq_some_iff.mpr rfl
  rw [runLines, runLine, hdecode]
  simp [h, lineEvents]

theorem runAll_ends_or_exists (texts : List String) :
    (∀ r ∈ (s.runAll host depth texts).2, r.ends = true) ∨
      ∃ before text after, texts = before ++ text :: after ∧
        (∀ r ∈ (s.runAll host depth before).2, r.ends = true) ∧
        ((s.runAll host depth before).1.run host depth text).2.ends = false := by
  induction texts generalizing s with
  | nil => exact .inl fun _ h ↦ absurd h List.not_mem_nil
  | cons text texts ih =>
    rcases hfirst : (s.run host depth text).2.ends
    · exact .inr ⟨[], text, texts, rfl, fun _ h ↦ absurd h List.not_mem_nil, hfirst⟩
    · rcases ih (s.run host depth text).1 with hends | ⟨before, last, after, rfl, hends, hlast⟩
      · exact .inl (List.forall_mem_cons.mpr ⟨hfirst, hends⟩)
      · exact .inr ⟨text :: before, last, after, rfl,
          List.forall_mem_cons.mpr ⟨hfirst, hends⟩, hlast⟩

end Runs

/-! ## More calls -/

section Bounds

variable {host : Host} {depth depth' : Nat} {s : Session}

theorem runLine_eq_of_le (h : depth ≤ depth') {line : List UInt8}
    (hends : (runLine host depth s line).ending ≠ some .endless) :
    runLine host depth' s line = runLine host depth s line := by
  rw [runLine] at hends
  rw [runLine, runLine]
  rcases hdecode : decode? line with _ | text
  · rfl
  · rw [hdecode] at hends
    have hrun : (s.run host depth text).2.ends = true := by
      by_contra hendless
      exact hends (if_neg hendless)
    simp only [Session.run_eq_of_le h hrun]

/-- A loop that ends is the same under every larger bound. -/
theorem runLines_eq_of_le (h : depth ≤ depth') {lines : List (List UInt8)}
    (hends : (runLines host depth s lines).ending ≠ .endless) :
    runLines host depth' s lines = runLines host depth s lines := by
  induction lines generalizing s with
  | nil => rfl
  | cons line rest ih =>
    rw [runLines] at hends
    have hline : (runLine host depth s line).ending ≠ some .endless := by
      intro hendless
      rw [hendless] at hends
      exact hends rfl
    rw [runLines, runLines, runLine_eq_of_le h hline]
    rcases hending : (runLine host depth s line).ending with _ | ending
    · rw [hending] at hends
      simp only [ih hends]
    · rfl

end Bounds

/-! ## What is written -/

theorem Event.textOf_cons (view : Event → String) (e : Event) (events : List Event) :
    Event.textOf view (e :: events) = view e ++ Event.textOf view events := by
  rw [Event.textOf, List.map_cons, String.join_cons, Event.textOf]

/-- A run that has not ended only prints. -/
theorem Event.ofReport_of_not_ends {r : Report (Option Value)} (h : r.ends = false) :
    Event.ofReport r = [.printed r.printed] := by
  obtain ⟨printed, (_ | _ | _ | _) | _⟩ := r
  · cases h
  · cases h
  · cases h
  · rfl
  · cases h

/-- What goes to the output for a line: the prompt in front of it, and its value if it has one. -/
def lineOutput (r : Report (Option Value)) : String :=
  Event.promptText ++ match r.result with
    | .ok (some v) => v.display ++ "\n"
    | .ok none | .error _ => ""

/-- What goes to the errors for a line: its message if it fails. -/
def lineErrors (r : Report (Option Value)) : String :=
  match r.result with
  | .ok _ | .error .tooDeep => ""
  | .error e => e.message ++ "\n"

/-- The transcript shows runs one after another and a prompt behind them. Behind the prompt only
`cut` is printed, and the session is left as given. -/
structure Shows (t : Transcript) (reports : List (Report (Option Value))) (left : Session)
    (cut : String) : Prop where
  session : t.session = left
  output : Event.textOf Event.output t.events
    = String.join (reports.map lineOutput) ++ Event.promptText
  errors : Event.textOf Event.errors t.events = String.join (reports.map lineErrors)
  printed : Event.textOf Event.print t.events = String.join (reports.map (·.printed)) ++ cut

/-- A view of the lines is put together from the views of each. -/
theorem textOf_lines (view : Event → String) (viewLine : Report (Option Value) → String)
    (h : ∀ r, Event.textOf view (lineEvents r) = viewLine r)
    (reports : List (Report (Option Value))) (last : List Event) :
    Event.textOf view (reports.flatMap lineEvents ++ last)
      = String.join (reports.map viewLine) ++ Event.textOf view last := by
  induction reports with
  | nil => simp [Event.textOf]
  | cons r reports ih =>
    simp only [Event.textOf, List.flatMap_cons, List.append_assoc, List.map_append,
      String.join_append, List.map_cons, String.join_cons] at h ih ⊢
    rw [h, String.append_assoc, ← ih]

/-- The transcript consists of the lines and some last events, which begin with a prompt. -/
theorem shows_of_events {t : Transcript} {reports : List (Report (Option Value))} {cut : String}
    {last : List Event} (hevents : t.events = reports.flatMap lineEvents ++ .prompt :: last)
    (houtput : Event.textOf Event.output last = "") (herrors : Event.textOf Event.errors last = "")
    (hprinted : Event.textOf Event.print last = cut) : Shows t reports t.session cut where
  session := rfl
  output := by
    rw [hevents, textOf_lines _ lineOutput, Event.textOf_cons, houtput, String.append_empty]
    · rfl
    · rintro ⟨printed, (_ | _ | _ | _) | _ | v⟩ <;>
        simp [Event.textOf, lineEvents, Event.ofReport, Event.output, lineOutput]
  errors := by
    rw [hevents, textOf_lines _ lineErrors, Event.textOf_cons, herrors]
    · simp [Event.errors]
    · rintro ⟨printed, (_ | _ | _ | _) | _ | v⟩ <;>
        simp [Event.textOf, lineEvents, Event.ofReport, Event.errors, lineErrors]
  printed := by
    rw [hevents, textOf_lines _ Report.printed, Event.textOf_cons, hprinted]
    · simp [Event.print]
    · rintro ⟨printed, (_ | _ | _ | _) | _ | v⟩ <;>
        simp [Event.textOf, lineEvents, Event.ofReport, Event.print]

section Loop

variable {host : Host} {depth : Nat} {s : Session} {input : List UInt8} {texts : List String}
  (hends : ∀ r ∈ (s.runAll host depth texts).2, r.ends = true)

include hends

theorem run_of_texts (h : AreLines input (texts.map bytesOf)) :
    (run host depth s input).ending = .finished ∧
      Shows (run host depth s input) (s.runAll host depth texts).2
        (s.runAll host depth texts).1 "" := by
  rw [run, areLines_iff.mp h, runLines_texts host depth s hends]
  exact ⟨rfl, shows_of_events rfl rfl rfl rfl⟩

theorem run_of_invalid {bad : List UInt8} {rest : List (List UInt8)}
    (h : AreLines input (texts.map bytesOf ++ bad :: rest)) (hbad : ∀ text, bad ≠ bytesOf text) :
    (run host depth s input).ending = .invalidLine ∧
      Shows (run host depth s input) (s.runAll host depth texts).2
        (s.runAll host depth texts).1 "" := by
  rw [run, areLines_iff.mp h, runLines_append host depth s hends,
    runLines_invalid host depth _ hbad]
  exact ⟨rfl, shows_of_events rfl rfl rfl rfl⟩

theorem run_of_endless {text : String} {rest : List (List UInt8)}
    (h : AreLines input (texts.map bytesOf ++ bytesOf text :: rest)) {left : Session}
    {report : Report (Option Value)}
    (hrun : (s.runAll host depth texts).1.run host depth text = (left, report))
    (hendless : report.ends = false) :
    (run host depth s input).ending = .endless ∧
      Shows (run host depth s input) (s.runAll host depth texts).2 left report.printed := by
  have hevents : lineEvents report = [.prompt, .printed report.printed] := by
    rw [lineEvents, Event.ofReport_of_not_ends hendless]
  rw [run, areLines_iff.mp h, runLines_append host depth s hends,
    runLines_endless host depth _ (by rw [hrun]; exact hendless), hrun, hevents]
  exact ⟨rfl, shows_of_events rfl rfl rfl (by simp [Event.textOf, Event.print])⟩

end Loop

/-- The loop is a session that runs the lines of the input, and its transcript shows these runs, if
all of them end. If a line is no text, the loop stops in front of it, with the runs of the lines
before it. If the run of a line does not end, the loop comes no further, and what is shown behind
the lines before is a prompt and what this run prints. So an input that starts with whole lines of
text can be cut behind them if their runs end: the loop shows the first part without its last
prompt, and then the second part in the session that the first one leaves. A loop that ends does so
in the same way however many more calls may nest. -/
theorem loop_runs_lines (host : Host) (depth : Nat) (s : Session) :
    (∀ input, ∃ lines, ∀ others, AreLines input others ↔ others = lines) ∧
    (∀ input texts, AreLines input (texts.map bytesOf) →
      (∀ r ∈ (s.runAll host depth texts).2, r.ends = true) →
      (run host depth s input).ending = .finished ∧
        Shows (run host depth s input) (s.runAll host depth texts).2
          (s.runAll host depth texts).1 "") ∧
    (∀ input texts bad rest, AreLines input (texts.map bytesOf ++ bad :: rest) →
      (∀ r ∈ (s.runAll host depth texts).2, r.ends = true) → (∀ text, bad ≠ bytesOf text) →
      (run host depth s input).ending = .invalidLine ∧
        Shows (run host depth s input) (s.runAll host depth texts).2
          (s.runAll host depth texts).1 "") ∧
    (∀ input texts text rest, AreLines input (texts.map bytesOf ++ bytesOf text :: rest) →
      (∀ r ∈ (s.runAll host depth texts).2, r.ends = true) →
      ∀ left report, (s.runAll host depth texts).1.run host depth text = (left, report) →
      report.ends = false →
      (run host depth s input).ending = .endless ∧
        Shows (run host depth s input) (s.runAll host depth texts).2 left report.printed) ∧
    (∀ text b, (bytesOf text).getLast? = some lineEnd →
      ((run host depth s (bytesOf text)).ending = .finished ∧
        ∃ before, (run host depth s (bytesOf text)).events = before ++ [.prompt] ∧
          run host depth s (bytesOf text ++ b)
            = (run host depth (run host depth s (bytesOf text)).session b).behind before) ∨
      ((run host depth s (bytesOf text)).ending = .endless ∧
        run host depth s (bytesOf text ++ b) = run host depth s (bytesOf text))) ∧
    ∀ input depth', depth ≤ depth' → (run host depth s input).ending ≠ .endless →
      run host depth' s input = run host depth s input := by
  refine ⟨fun input ↦ ⟨splitLines input, fun others ↦ areLines_iff.trans eq_comm⟩,
    fun input texts h hends ↦ run_of_texts hends h,
    fun input texts bad rest h hends hbad ↦ run_of_invalid hends h hbad,
    fun input texts text rest h hends left report hrun ↦ run_of_endless hends h hrun,
    fun text b hend ↦ ?_, fun input depth' hle hends ↦ runLines_eq_of_le hle hends⟩
  obtain ⟨texts, htexts⟩ := exists_texts text
  have hrun : run host depth s (bytesOf text) = runLines host depth s (texts.map bytesOf) := by
    rw [run, htexts]
  have hboth : run host depth s (bytesOf text ++ b)
      = runLines host depth s (texts.map bytesOf ++ splitLines b) := by
    rw [run, splitLines_append_of_ended hend, htexts]
  rw [hrun, hboth]
  rcases runAll_ends_or_exists host depth s texts with
    hends | ⟨before, last, after, rfl, hends, hlast⟩
  · rw [runLines_texts host depth s hends, runLines_append host depth s hends]
    exact .inl ⟨rfl, _, rfl, rfl⟩
  · rw [List.map_append, List.map_cons, List.append_assoc, List.cons_append,
      runLines_append host depth s hends, runLines_append host depth s hends,
      runLines_endless host depth _ hlast, runLines_endless host depth _ hlast]
    exact .inr ⟨rfl, rfl⟩

/-- A line that declares a name, one that returns a value and one that fails. -/
def threeTexts : List String := ["let x = 4;\n", "return x * 2;\n", "return y;\n"]

def threeLines : List UInt8 := bytesOf (String.join threeTexts)

theorem loop_stops_behind_three_lines :
    AreLines (threeLines ++ [255, 10, 49]) (threeTexts.map bytesOf ++ [[255, 10], [49]]) ∧
      (∀ r ∈ (Session.initial.runAll Host.none 0 threeTexts).2, r.ends = true) ∧
      (∀ text, [255, 10] ≠ bytesOf text) ∧
      (run Host.none 0 .initial (threeLines ++ [255, 10, 49])).ending = .invalidLine ∧
      Event.textOf Event.output (run Host.none 0 .initial (threeLines ++ [255, 10, 49])).events
        = ">> >> 8\n>> >> " ∧
      Event.textOf Event.errors (run Host.none 0 .initial threeLines).events
        = "Undefined identifier 'y'.\n" ∧
      ∃ before, (run Host.none 0 .initial threeLines).events = before ++ [.prompt] ∧
        run Host.none 0 .initial (threeLines ++ [255, 10, 49])
          = (run Host.none 0 (run Host.none 0 .initial threeLines).session [255, 10, 49]).behind
              before := by
  obtain ⟨-, hwhole, hstopped, -, hcut, -⟩ := loop_runs_lines Host.none 0 .initial
  have hlines : AreLines threeLines (threeTexts.map bytesOf) := areLines_iff.mpr (by decide +kernel)
  have hbroken : AreLines (threeLines ++ [255, 10, 49])
      (threeTexts.map bytesOf ++ [[255, 10], [49]]) := areLines_iff.mpr (by decide +kernel)
  have hends : ∀ r ∈ (Session.initial.runAll Host.none 0 threeTexts).2, r.ends = true :=
    List.all_eq_true.mp (by decide +kernel)
  have hbad : ∀ text, [255, 10] ≠ bytesOf text := decode?_eq_none_iff.mp (by decide +kernel)
  obtain ⟨hfinished, hshown⟩ := hwhole _ _ hlines hends
  obtain ⟨hending, hshows⟩ := hstopped _ _ _ _ hbroken hends hbad
  refine ⟨hbroken, hends, hbad, hending, ?_, ?_, ?_⟩
  · rw [hshows.output]
    decide +kernel
  · rw [hshown.errors]
    decide +kernel
  · rcases hcut (String.join threeTexts) [255, 10, 49] (by decide +kernel) with
      ⟨-, hbefore⟩ | ⟨hendless, -⟩
    · exact hbefore
    · exact absurd (hfinished.symm.trans hendless) (by decide)

/-! ## A line that holds up the loop -/

/-- The call of a function that calls itself does not end, however many calls may nest. -/
theorem ends_eq_false_of_selfCall (host : Host) (depth : Nat) {s : Session} {tag : Nat}
    {name : String} (h : s.scope.resolve name = some (.function (Eval.selfCall tag name))) :
    (s.runProgram host depth [.expression (.call name [])]).2.ends = false := by
  have hcall : ∃ v, (Eval.expression host depth (.call name [])).run { scope := s.scope }
      = .error .tooDeep v := Eval.exists_tooDeep_of_selfCall depth h
  obtain ⟨v, hv⟩ := hcall
  have hprogram : (Eval.program host depth [.expression (.call name [])]).run { scope := s.scope }
      = .error .tooDeep v := by
    rw [Eval.expression] at hv
    simp only [Eval.program, Eval.block, Eval.statements, Eval.statement, EStateM.run_bind, hv]
  have hload : s.load [.expression (.call name [])] = (s, [.expression (.call name [])]) := rfl
  simp only [Session.runProgram, hload, Session.evaluate, hprogram]
  rfl

/-- Defines a function that calls itself. -/
def runawayDefinition : String := "function f() \x7b f(); \x7d\n"

/-- The definition, a call of the function, and a line behind. -/
def runawayInput : List UInt8 := bytesOf (runawayDefinition ++ "f();\n" ++ "return 1;\n")

theorem compile_runaway :
    Session.compile runawayDefinition = .ok [.function () "f" [] [.expression (.call "f" [])]] ∧
      Session.compile "f();\n" = .ok [.expression (.call "f" [])] := by
  have hdefine : tokenize runawayDefinition
      = .ok [⟨.keyFunction, "function", 1⟩, ⟨.identifier, "f", 1⟩, ⟨.leftParen, "(", 1⟩,
          ⟨.rightParen, ")", 1⟩, ⟨.leftBrace, "\x7b", 1⟩, ⟨.identifier, "f", 1⟩,
          ⟨.leftParen, "(", 1⟩, ⟨.rightParen, ")", 1⟩, ⟨.semicolon, ";", 1⟩,
          ⟨.rightBrace, "\x7d", 1⟩] := by
    decide
  have hcall : tokenize "f();\n"
      = .ok [⟨.identifier, "f", 1⟩, ⟨.leftParen, "(", 1⟩, ⟨.rightParen, ")", 1⟩,
          ⟨.semicolon, ";", 1⟩] := by
    decide
  simp only [Session.compile, hdefine, hcall]
  exact ⟨rfl, rfl⟩

/-- All lines are texts, but the run of the second does not end. The loop does not come to the
third, however many calls may nest. -/
theorem runaway_call_holds_up_loop :
    AreLines runawayInput ([runawayDefinition, "f();\n", "return 1;\n"].map bytesOf) ∧
      ∀ depth, (run Host.none depth .initial runawayInput).ending = .endless ∧
        Event.textOf Event.output (run Host.none depth .initial runawayInput).events
          = ">> >> " := by
  have hlines : AreLines runawayInput
      ([runawayDefinition].map bytesOf ++ bytesOf "f();\n" :: [bytesOf "return 1;\n"]) :=
    areLines_iff.mpr (by decide +kernel)
  refine ⟨hlines, fun depth ↦ ?_⟩
  obtain ⟨hdefine, hcall⟩ := compile_runaway
  have hfirst : Session.initial.runAll Host.none depth [runawayDefinition]
      = (⟨Session.initial.scope.define "f" (.function (Eval.selfCall 1 "f")), 2⟩,
          [⟨"", .ok none⟩]) := by
    rw [Session.runAll, Session.run, hdefine]
    rfl
  have hsecond : ((Session.initial.runAll Host.none depth [runawayDefinition]).1.run
      Host.none depth "f();\n").2.ends = false := by
    rw [hfirst, Session.run, hcall]
    exact ends_eq_false_of_selfCall Host.none depth rfl
  have hends : ∀ r ∈ (Session.initial.runAll Host.none depth [runawayDefinition]).2,
      r.ends = true := by
    rw [hfirst]
    exact List.forall_mem_singleton.mpr rfl
  rcases hrun : (Session.initial.runAll Host.none depth [runawayDefinition]).1.run
    Host.none depth "f();\n" with ⟨left, report⟩
  rw [hrun] at hsecond
  obtain ⟨hending, hshows⟩ := run_of_endless hends hlines hrun hsecond
  refine ⟨hending, ?_⟩
  rw [hshows.output, hfirst]
  rfl

end Scriptlet.Repl
