import MonkeyScan.Proofs.Listing

/-!
# MonkeyScan.Proofs.Reporting

What the command line does with an expression or a file, told from the scan of its source: the exit
code, and what goes to standard output and to standard error, without records and with them.

* `Lexer.events_next`: what is recorded about an outcome can be told from the outcome, so the
  records of a listing can be told from its scan (`Lexer.listing_shows`).
* `Command.Asked.report_eq`: everything that is put out, in its order.
* `Command.asked_reported`: both channels and the exit code, for each source that has bytes and for
  those that have none, on any console. `Command.message_not_last` are two cases in which the
  message of an error is not the end of standard error.
-/

namespace MonkeyScan

/-! ## Records of a scan -/

/-- What is recorded about an outcome, told from the outcome alone. -/
def Outcome.record? : Outcome → Option Event
  | .ok ⟨.illegal, .number n, some l⟩ => some (.illegalByte l (UInt8.ofNat n.toNat))
  | .error ⟨.invalidCharacter n, some l, _⟩ => some (.illegalByte l (UInt8.ofNat n.toNat))
  | .error ⟨.integerOverflow literal _, some l, _⟩ => some (.overflow l literal)
  | _ => none

/-- What a listing comes to of a scan: the tokens before the first diagnostic, and this one. -/
def reached (outcomes : List Outcome) : List Outcome :=
  (leading outcomes).map .ok ++ (firstDiagnostic outcomes).toList.map .error

def records (outcomes : List Outcome) : List Event :=
  (reached outcomes).filterMap Outcome.record?

theorem records_of_isEnd {t : Token} (h : t.isEnd) : records [.ok t] = [] := by
  rw [records, reached, @leading_of_finishes (.ok t) h]
  rfl

theorem records_error_cons (d : Diagnostic) (os : List Outcome) :
    records (.error d :: os) = (Outcome.record? (.error d)).toList := by
  rw [records, reached, leading_of_finishes rfl]
  show [Except.error d].filterMap Outcome.record? = _
  cases h : Outcome.record? (.error d) <;> simp [h]

theorem records_token_cons {t : Token} (h : ¬ t.isEnd) (os : List Outcome) :
    records (.ok t :: os) = (Outcome.record? (.ok t)).toList ++ records os := by
  rw [records, records, reached, leading_token_cons h]
  show (Except.ok t :: reached os).filterMap Outcome.record? = _
  cases h : Outcome.record? (.ok t) <;> simp [h]

namespace Lexer

theorem events_read (lx : Lexer) (l : Lexeme) : (lx.read l).2 = (lx.read l).1.record?.toList := by
  cases l with
  | symbol k => cases k <;> rfl
  | word b more =>
    simp only [read, Token.ofWord, Token.ofReserved?]
    cases Kind.ofReserved? (Latin1.decode (b :: more)) with
    | none => rfl
    | some k => cases k <;> rfl
  | number b more =>
    simp only [read]
    split <;> rfl
  | stray b => cases hs : lx.options.strict <;> simp [read, hs, Outcome.record?]

theorem events_next (lx : Lexer) : lx.next.events = lx.next.result.record?.toList := by
  rcases next_cases lx with ⟨-, hnext⟩ | ⟨l, b, more, h, -⟩
  · rw [hnext]
    rfl
  · rw [h.next_eq]
    exact lx.skipBlanks.events_read l

/-- Every outcome of a scan has its place. -/
theorem exists_location (lx : Lexer) :
    ∀ o ∈ lx.items.result.map Item.outcome, ∃ l, o.location = some l := by
  have hnext : ∀ lx : Lexer, ∃ l, lx.next.result.location = some l := by
    intro lx
    rw [lx.next_eq_ofContent, Outcome.location_ofContent]
    exact ⟨_, rfl⟩
  induction lx using scan_induction with
  | done lx h =>
    rw [items_eq_end h]
    simp [Outcome.location, endToken]
  | step lx l b more h ih =>
    rw [h.items_eq, List.map_cons, List.forall_mem_cons]
    exact ⟨hnext lx, ih⟩

end Lexer

theorem exists_location_of_leading {lx : Lexer} {t : Token}
    (h : t ∈ leading (lx.items.result.map Item.outcome)) : ∃ l, t.location = some l := by
  obtain ⟨o, ho, ht⟩ := List.mem_filterMap.mp h
  obtain ⟨l, hl⟩ := lx.exists_location o ((List.takeWhile_prefix _).subset ho)
  cases o with
  | error d => cases ht
  | ok t' =>
    cases ht
    exact ⟨l, hl⟩

/-! ## What a listing puts out -/

/-- Some records, each as a line. -/
def debugLines (events : List Event) : String :=
  lines (events.map fun e => "DEBUG: " ++ e.message.spelled)

theorem debugLines_append (events more : List Event) :
    debugLines (events ++ more) = debugLines events ++ debugLines more := by
  simp [debugLines, lines, String.join_append]

theorem join_filter (text : Piece → String) (keep : Piece → Bool) {out : Output}
    (h : ∀ p ∈ out, ¬ keep p → text p = "") :
    String.join ((out.filter keep).map text) = String.join (out.map text) := by
  induction out with
  | nil => rfl
  | cons p out ih =>
    rw [List.forall_mem_cons] at h
    by_cases hp : keep p
    · rw [List.filter_cons_of_pos hp, List.map_cons, List.map_cons, String.join_cons,
        String.join_cons, ih h.2]
    · rw [List.filter_cons_of_neg hp, List.map_cons, String.join_cons, h.1 hp, ih h.2,
        String.empty_append]

namespace Output

theorem stdout_records (events : List Event) : stdout (events.map Piece.record) = "" := by
  induction events with
  | nil => rfl
  | cons e events ih => exact ih

theorem stderr_records (console : Console) (events : List Event) :
    stderr console (events.map Piece.record) = debugLines events := by
  simp [stderr, debugLines, lines, Function.comp_def, Piece.stderr]

/-- What goes to standard output does not depend on the records. -/
theorem stdout_atLevel (verbose : Bool) (out : Output) :
    (atLevel verbose out).stdout = out.stdout := by
  cases verbose with
  | true => rfl
  | false =>
    refine join_filter Piece.stdout _ fun p _ hp => ?_
    cases p with
    | record e => rfl
    | _ => exact absurd rfl hp

end Output

namespace Lexer

/-- A listing in full: its lines and its records, each in order, and the number of its lines. -/
theorem listing_shows (located : Bool) (lx : Lexer) :
    (lx.listing located).output.stdout =
        lines ((leading (lx.items.result.map Item.outcome)).map (Token.display located)) ∧
      (∀ console, (lx.listing located).output.stderr console =
        debugLines (records (lx.items.result.map Item.outcome))) ∧
      (lx.listing located).count = (leading (lx.items.result.map Item.outcome)).length := by
  induction lx using scan_induction with
  | done lx h =>
    rw [listing_eq_end located h, items_eq_end h, List.map_singleton, leading_of_finishes rfl,
      records_of_isEnd rfl]
    exact ⟨rfl, fun _ => rfl, rfl⟩
  | step lx l b more h ih =>
    rw [h.items_eq, List.map_cons]
    have hevents := lx.events_next
    cases hr : lx.next.result with
    | error d =>
      rw [hr] at hevents
      rw [listing_eq_error located hr, leading_of_finishes rfl, records_error_cons, ← hevents]
      exact ⟨Output.stdout_records _, fun console => Output.stderr_records console _, rfl⟩
    | ok t =>
      have ht := h.not_isEnd_of_ok hr
      obtain ⟨hstdout, hstderr, hcount⟩ := ih
      rw [hr] at hevents
      rw [listing_eq_token located hr ht, leading_token_cons ht, records_token_cons ht, ← hevents]
      refine ⟨?_, fun console => ?_, by rw [hcount, List.length_cons]⟩
      · rw [Output.stdout_append, Output.stdout_records, Output.stdout_cons, List.map_cons,
          lines_cons, ← hstdout, String.empty_append]
        rfl
      · rw [Output.stderr_append, Output.stderr_records, Output.stderr_cons, debugLines_append,
          ← hstderr console, show Piece.stderr console (.token (t.display located)) = "" from rfl,
          String.empty_append]

end Lexer

/-! ## Reports -/

namespace Command

/-- What a command line asks to be scanned: an expression, or a file that is found by its name. -/
inductive Asked where
  | expression (text : Text)
  | file (name : Text) (content : Bytes)

namespace Asked

def arguments (options : Options) (verbose : Bool) : Asked → Arguments
  | .expression text => { options, verbose, expression := some text }
  | .file name _ => { options, verbose, operands := [name] }

def Found (find : Text → Entry) : Asked → Prop
  | .expression _ => True
  | .file name content => find name = .file content

def source : Asked → Source
  | .expression text => .text text
  | .file _ content => .bytes content

/-- The name of the source. -/
def name : Asked → Text
  | .expression _ => Mode.expressionName
  | .file name _ => Path.normalize name

def task (mode : Mode) : Asked → Task
  | .expression text => .expression mode text
  | .file name content => .file mode (Path.normalize name) content

/-- What is recorded before a scan. -/
def opening : Asked → List Event
  | .expression _ => []
  | .file name _ => [.reading (Path.normalize name)]

/-- What is recorded after a scan that was not cut short. -/
def closing (outcomes : List Outcome) : Asked → List Event
  | .expression _ => []
  | .file _ _ =>
    match firstDiagnostic outcomes with
    | none => [.finished (leading outcomes).length]
    | some _ => []

/-- An expression is scanned whatever it is, the empty one too. -/
theorem plan_eq {asked : Asked} {find : Text → Entry} (h : asked.Found find) (options : Options)
    (verbose : Bool) :
    plan find (asked.arguments options verbose) = .ok (asked.task ⟨options, verbose⟩) := by
  cases asked with
  | expression text => rfl
  | file name content => simp [plan, arguments, task, show find name = .file content from h]

end Asked

/-- Everything that is put out about a source with these bytes, and the exit code. -/
theorem Asked.report_eq {asked : Asked} {bs : Bytes} (h : asked.source.toBytes = .ok bs)
    (mode : Mode) (input : Bytes) :
    (asked.task mode).report input =
      ⟨exitOf (firstDiagnostic (Lexer.scan bs asked.name mode.options)),
      Output.atLevel mode.verbose
        (asked.opening.map .record ++ (mode.listing asked.name bs).output ++
          (firstDiagnostic (Lexer.scan bs asked.name mode.options)).toList.map
            Diagnostic.complaint ++
          (asked.closing (Lexer.scan bs asked.name mode.options)).map .record)⟩ := by
  have hstopped : (mode.listing asked.name bs).stoppedBy =
      firstDiagnostic (Lexer.scan bs asked.name mode.options) :=
    (Lexer.listing_eq mode.verbose (.start bs asked.name mode.options)).2
  have hcount : (mode.listing asked.name bs).count =
      (leading (Lexer.scan bs asked.name mode.options)).length :=
    (Lexer.listing_shows mode.verbose (.start bs asked.name mode.options)).2.2
  rw [← hstopped]
  cases asked with
  | expression text =>
    have hencode : Utf8.encode text = .ok bs := h
    simp only [task, Task.report, Task.report.shown, Mode.expression, hencode, Report.ofListing_eq]
    simp [opening, closing, name]
  | file name content =>
    obtain rfl : content = bs := Except.ok.inj h
    simp only [task, Task.report, Task.report.shown, Mode.file, Report.ofListing_eq, Report.after]
    simp only [Asked.name] at hstopped hcount ⊢
    simp only [closing, ← hstopped, ← hcount, opening]
    generalize mode.listing (Path.normalize name) content = listing
    obtain ⟨output, count, stoppedBy⟩ := listing
    cases stoppedBy <;> simp

/-- The complaint about a scan, if there is one. -/
def complaintOf (console : Console) (outcomes : List Outcome) : String :=
  (firstDiagnostic outcomes).elim "" (Diagnostic.shown console)

theorem stderr_complaintOf (console : Console) (outcomes : List Outcome) :
    Output.stderr console ((firstDiagnostic outcomes).toList.map Diagnostic.complaint) =
      complaintOf console outcomes := by
  rw [complaintOf, Output.stderr_complaints]
  cases firstDiagnostic outcomes with
  | none => rfl
  | some d => exact String.join_cons.trans String.append_empty

/-- After a complaint there is nothing left to record. -/
theorem Asked.complaint_then_closing (console : Console) (asked : Asked) (outcomes : List Outcome) :
    complaintOf console outcomes ++ debugLines (asked.closing outcomes) =
      debugLines (asked.closing outcomes) ++ complaintOf console outcomes := by
  cases asked with
  | expression text => simp [closing, debugLines, lines]
  | file name content =>
    rw [complaintOf, closing]
    cases firstDiagnostic outcomes <;> simp [debugLines, lines]

section Shown

variable (console : Console) {asked : Asked} {bs : Bytes} (h : asked.source.toBytes = .ok bs)
  (mode : Mode) (input : Bytes)

include h

theorem Asked.stdout_report :
    ((asked.task mode).report input).stdout =
      lines ((leading (Lexer.scan bs asked.name mode.options)).map
        (Token.display mode.verbose)) := by
  have hlisting :=
    (Lexer.listing_shows mode.verbose (.start bs asked.name mode.options)).1
  rw [asked.report_eq h mode input, Report.stdout, Output.stdout_atLevel]
  simp only [Output.stdout_append, Output.stdout_records, Output.stdout_complaints,
    String.empty_append, String.append_empty]
  exact hlisting

/-- With records, these come first, in the order of time. -/
theorem Asked.stderr_report_verbose (hmode : mode.verbose = true) :
    ((asked.task mode).report input).stderr console =
      debugLines (asked.opening ++ records (Lexer.scan bs asked.name mode.options) ++
          asked.closing (Lexer.scan bs asked.name mode.options)) ++
        complaintOf console (Lexer.scan bs asked.name mode.options) := by
  have hlisting : (mode.listing asked.name bs).output.stderr console =
      debugLines (records (Lexer.scan bs asked.name mode.options)) :=
    (Lexer.listing_shows mode.verbose (.start bs asked.name mode.options)).2.1 console
  rw [asked.report_eq h mode input, Report.stderr, hmode]
  simp only [Output.atLevel, if_true, Output.stderr_append, Output.stderr_records,
    stderr_complaintOf, hlisting, debugLines_append, String.append_assoc,
    asked.complaint_then_closing]

theorem Asked.stderr_report (hmode : mode.verbose = false) :
    ((asked.task mode).report input).stderr console =
      complaintOf console (Lexer.scan bs asked.name mode.options) := by
  have hlisting : Output.atLevel false (mode.listing asked.name bs).output =
      ((leading (Lexer.scan bs asked.name mode.options)).map
        (Token.display mode.verbose)).map .token := by
    rw [List.map_map]
    exact (Lexer.listing_eq mode.verbose (.start bs asked.name mode.options)).1
  rw [asked.report_eq h mode input, Report.stderr, hmode]
  simp only [Output.atLevel_append, Output.atLevel_records, hlisting, Output.stderr_append,
    Output.stderr_tokens, Output.atLevel_complaints, stderr_complaintOf]
  simp [Output.stderr]

end Shown

/-- Only an expression can lack bytes. -/
theorem Asked.report_of_error {asked : Asked} {e : Utf8.Unencodable}
    (h : asked.source.toBytes = .error e) (mode : Mode) (input : Bytes) :
    (asked.task mode).report input =
      ⟨.internalError, .complaint (Failure.unencodable e).complaint ::
        if mode.verbose then [.trace (.unencodable e)] else []⟩ := by
  cases asked with
  | file name content => cases h
  | expression text =>
    have hencode : Utf8.encode text = .error e := h
    simp only [task, Task.report, Task.report.shown, Mode.expression, hencode, Report.ofFailure]
    cases mode.verbose <;> rfl

/-- The complaint about a text without bytes has nothing in it that a console would change. -/
theorem stderr_unencodable {console : Console} (hconsole : console.KeepsPlain)
    (e : Utf8.Unencodable) :
    Piece.stderr console (.complaint (Failure.unencodable e).complaint) =
      "Internal error: " ++ e.message ++ "\n" := by
  have hcomplaint : (Failure.unencodable e).complaint =
      Text.ofString "Internal error: " ++ Text.ofString e.message ++ Text.ofString "\n" := rfl
  have hopening : Plain "Internal error: " := by decide
  have hend : Plain "\n" := by decide
  have hplain : Plain (Failure.unencodable e).complaint :=
    (hopening.append e.visible_message.plain).append hend
  rw [Piece.stderr, hconsole _ hplain, hcomplaint, Text.spelled_append, Text.spelled_append,
    Text.spelled_ofString, Text.spelled_ofString, Text.spelled_ofString]

/-! ## The command line -/

/-- The reports on a scan, without records and with them. -/
structure Reports (console : Console) (asked : Asked) (outcomes : List Outcome)
    (quiet loud : Report) : Prop where
  exit : quiet.exit.number = if (firstDiagnostic outcomes).isSome then 1 else 0
  stdout : quiet.stdout = lines ((leading outcomes).map Token.render)
  stderr : quiet.stderr console = (firstDiagnostic outcomes).elim "" (Diagnostic.shown console)
  /-- A diagnostic that quotes no escape character is put out as it is. -/
  stderr_plain : ∀ d ∈ firstDiagnostic outcomes, Plain d.render →
    quiet.stderr console = d.render.spelled ++ "\n"
  exit_loud : loud.exit = quiet.exit
  stdout_loud : loud.stdout = lines ((leading outcomes).map Token.renderLocated)
  located : ∀ t ∈ leading outcomes, ∃ l, t.location = some l ∧ t.renderLocated =
    Numeral.decimal l.line ++ ":" ++ Numeral.decimal l.column ++ "\t" ++ t.render
  stderr_loud : loud.stderr console =
    debugLines (asked.opening ++ records outcomes ++ asked.closing outcomes) ++
      quiet.stderr console

/-- The reports on a text that has no bytes. -/
structure Refusals (console : Console) (e : Utf8.Unencodable) (quiet loud : Report) : Prop where
  exit : quiet.exit.number = 3
  stdout : quiet.stdout = ""
  stderr : quiet.stderr console = "Internal error: " ++ e.message ++ "\n"
  exit_loud : loud.exit = quiet.exit
  stdout_loud : loud.stdout = ""
  /-- The trace follows, whatever the console makes of it. -/
  stderr_loud : loud.stderr console =
    quiet.stderr console ++ (console.trace (.unencodable e)).spelled

theorem reports {console : Console} (hconsole : console.KeepsPlain) (asked : Asked)
    (options : Options) {bs : Bytes} (h : asked.source.toBytes = .ok bs) (input : Bytes) :
    Reports console asked (Lexer.scan bs asked.name options)
      ((asked.task ⟨options, false⟩).report input) ((asked.task ⟨options, true⟩).report input) := by
  have hquiet := asked.report_eq h ⟨options, false⟩ input
  have hloud := asked.report_eq h ⟨options, true⟩ input
  have hstderr := asked.stderr_report console h ⟨options, false⟩ input rfl
  refine ⟨?_, asked.stdout_report h ⟨options, false⟩ input, hstderr, ?_, ?_,
    asked.stdout_report h ⟨options, true⟩ input, ?_, ?_⟩
  · rw [hquiet]
    cases firstDiagnostic (Lexer.scan bs asked.name options) <;> rfl
  · intro d hd hplain
    rw [hstderr, complaintOf, Option.mem_def.mp hd]
    exact d.shown_of_plain hconsole hplain
  · rw [hquiet, hloud]
  · intro t ht
    obtain ⟨l, hl⟩ := exists_location_of_leading ht
    exact ⟨l, hl, by rw [Token.renderLocated, hl]⟩
  · rw [hstderr]
    exact asked.stderr_report_verbose console h ⟨options, true⟩ input rfl

theorem refusals {console : Console} (hconsole : console.KeepsPlain) (asked : Asked)
    (options : Options) {e : Utf8.Unencodable} (h : asked.source.toBytes = .error e)
    (input : Bytes) :
    Refusals console e ((asked.task ⟨options, false⟩).report input)
      ((asked.task ⟨options, true⟩).report input) := by
  have hquiet := asked.report_of_error h ⟨options, false⟩ input
  have hloud := asked.report_of_error h ⟨options, true⟩ input
  have hcomplaint := stderr_unencodable hconsole e
  have hstderr : ((asked.task ⟨options, false⟩).report input).stderr console =
      "Internal error: " ++ e.message ++ "\n" := by
    rw [hquiet, Report.stderr, Output.stderr_cons, hcomplaint]
    exact String.append_empty
  refine ⟨by rw [hquiet]; rfl, by rw [hquiet]; rfl, hstderr, by rw [hquiet, hloud],
    by rw [hloud]; rfl, ?_⟩
  rw [hstderr, hloud, Report.stderr, Output.stderr_cons, hcomplaint]
  exact congrArg _ (String.join_cons.trans String.append_empty)

/-- An expression or a file that is there is listed up to its first diagnostic, which is reported
and decides the exit code. Records are added in verbose mode, and change nothing else. -/
theorem asked_reported {console : Console} (hconsole : console.KeepsPlain) (find : Text → Entry)
    (input : Bytes) (options : Options) {asked : Asked} (h : asked.Found find) :
    ∃ quiet loud,
      (plan find (asked.arguments options false)).map (Task.report input) = .ok quiet ∧
      (plan find (asked.arguments options true)).map (Task.report input) = .ok loud ∧
      match asked.source.toBytes with
      | .ok bs => Reports console asked (Lexer.scan bs asked.name options) quiet loud
      | .error e => Refusals console e quiet loud := by
  refine ⟨_, _, congrArg (Except.map _) (Asked.plan_eq h options false),
    congrArg (Except.map _) (Asked.plan_eq h options true), ?_⟩
  cases hbytes : asked.source.toBytes with
  | ok bs => exact reports hconsole asked options hbytes input
  | error e => exact refusals hconsole asked options hbytes input

/-- A file with a stray byte, for a strict scan whose complaints go to a pipe. -/
theorem asked_reported_stray :
    Console.piped.KeepsPlain ∧ (Asked.file "x.mk" [64]).Found (fun _ => .file [64]) ∧
      ∃ quiet loud,
        (plan (fun _ => .file [64]) ((Asked.file "x.mk" [64]).arguments ⟨false, true⟩ false)).map
          (Task.report []) = .ok quiet ∧
        (plan (fun _ => .file [64]) ((Asked.file "x.mk" [64]).arguments ⟨false, true⟩ true)).map
          (Task.report []) = .ok loud ∧
        Reports .piped (.file "x.mk" [64])
          (Lexer.scan [64] (Asked.file "x.mk" [64]).name ⟨false, true⟩) quiet loud :=
  ⟨Console.keepsPlain_piped, rfl,
    asked_reported Console.keepsPlain_piped (fun _ => .file [64]) [] ⟨false, true⟩ rfl⟩

/-- A source may make its own quotation look different: the escape character that a strict scan
stops at and the two characters behind it do not reach a pipe. Nor is the message always the last
thing there: behind that of an internal error a trace follows in verbose mode. -/
theorem message_not_last :
    (∃ d, firstDiagnostic (Lexer.scan [27, 91, 109] Mode.expressionName ⟨false, true⟩) = some d ∧
      ¬ ∃ before, ((Task.expression ⟨⟨false, true⟩, false⟩
        [⟨27, by omega⟩, ⟨91, by omega⟩, ⟨109, by omega⟩]).report []).stderr .piped =
          before ++ (d.render.spelled ++ "\n")) ∧
    ((Task.expression ⟨⟨false, false⟩, true⟩ [⟨0xD800, by omega⟩]).report []).stderr .piped ≠
      ((Task.expression ⟨⟨false, false⟩, false⟩ [⟨0xD800, by omega⟩]).report []).stderr .piped := by
  constructor
  · let d : Diagnostic :=
      ⟨.invalidCharacter 27, some ⟨Mode.expressionName, 1, 1⟩, some "\x1b[m"⟩
    let message := "<expr>:1:1: error: invalid byte 0x1B\n    \x1b[m\n    ^"
    let shown := "<expr>:1:1: error: invalid byte 0x1B\n    \n    ^\n"
    have hfirst : firstDiagnostic (Lexer.scan [27, 91, 109] Mode.expressionName ⟨false, true⟩) =
        some d := by decide +kernel
    have hstderr : ((Task.expression ⟨⟨false, true⟩, false⟩
        [⟨27, by omega⟩, ⟨91, by omega⟩, ⟨109, by omega⟩]).report []).stderr .piped = shown := by
      decide +kernel
    have hmessage : d.render.spelled = message := by decide +kernel
    have hshort : shown.length < (message ++ "\n").length := by decide
    refine ⟨d, hfirst, ?_⟩
    rintro ⟨before, hends⟩
    rw [hstderr, hmessage] at hends
    have hlength := congrArg String.length hends
    rw [String.length_append] at hlength
    omega
  · decide +kernel

end Command
end MonkeyScan
