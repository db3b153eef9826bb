import MonkeyScan.Proofs.Lines
import MonkeyScan.Proofs.Listing

/-!
# MonkeyScan.Proofs.Interactive

A session on some lines, next to the listing of a file that holds them. Without records, both put
out the tokens of a scan up to its first diagnostic, and then this one (`answer`); a session does so
for each line.

* `Command.echoes_eq`: the tokens of all lines up to the first diagnostic are those that a session
  echoes before its first complaint.
* `Command.session_agrees_with_file`: what a session and the listing of a file put out, with the
  text of both channels. `Command.session_message_stripped` is a line whose message does not go out
  as it is.
-/

namespace MonkeyScan

open Grammar

/-! ## Answers -/

def Token.echo (t : Token) : Piece := .token t.render

/-- The tokens up to the first diagnostic, and this one. -/
def answer (outcomes : List Outcome) : Output :=
  (leading outcomes).map Token.echo ++ (firstDiagnostic outcomes).toList.map Diagnostic.complaint

theorem leading_tokens_append {ts : List Token} (h : ∀ t ∈ ts, ¬ t.isEnd) (os : List Outcome) :
    leading (ts.map .ok ++ os) = ts ++ leading os := by
  induction ts with
  | nil => rfl
  | cons t ts ih =>
    rw [List.forall_mem_cons] at h
    rw [List.map_cons, List.cons_append, leading_token_cons h.1, ih h.2, List.cons_append]

theorem firstDiagnostic_tokens_append (ts : List Token) (os : List Outcome) :
    firstDiagnostic (ts.map .ok ++ os) = firstDiagnostic os := by
  induction ts with
  | nil => rfl
  | cons t ts ih => exact ih

theorem Token.echo_congr {t t' : Token} (h : t.key = t'.key) :
    t.isEnd = t'.isEnd ∧ t.echo = t'.echo := by
  obtain ⟨kind, payload, place⟩ := t
  obtain ⟨kind', payload', place'⟩ := t'
  cases h
  exact ⟨rfl, rfl⟩

/-- What is echoed depends on what the tokens are, not on their places. -/
theorem echoes_congr {os os' : List Outcome}
    (h : os.map Outcome.content = os'.map Outcome.content) :
    (leading os).map Token.echo = (leading os').map Token.echo := by
  induction os generalizing os' with
  | nil => rw [List.map_eq_nil_iff.mp h.symm]
  | cons o os ih =>
    obtain ⟨o', os', rfl, ho, hos⟩ := List.map_eq_cons_iff.mp h.symm
    cases o with
    | error d =>
      cases o' with
      | error d' => rfl
      | ok t' => cases ho
    | ok t =>
      cases o' with
      | error d' => cases ho
      | ok t' =>
        obtain ⟨hend, hecho⟩ := Token.echo_congr (Except.ok.inj ho)
        by_cases ht : t.isEnd
        · have ht' : t'.isEnd := hend ▸ ht
          rw [@leading_of_finishes (.ok t) ht, @leading_of_finishes (.ok t') ht']
        · have ht' : ¬ t'.isEnd := hend ▸ ht
          rw [leading_token_cons ht, leading_token_cons ht', List.map_cons, List.map_cons, hecho,
            ih hos.symm]

theorem answer_tokens {ts : List Token} (h : ∀ t ∈ ts, ¬ t.isEnd) {last : Token}
    (hlast : last.isEnd) : answer (ts.map .ok ++ [.ok last]) = ts.map Token.echo := by
  rw [answer, leading_tokens_append h, @leading_of_finishes (.ok last) hlast,
    firstDiagnostic_tokens_append, List.append_nil]
  exact List.append_nil _

theorem answer_error {ts : List Token} (h : ∀ t ∈ ts, ¬ t.isEnd) (d : Diagnostic)
    (more : List Outcome) :
    answer (ts.map .ok ++ .error d :: more) = ts.map Token.echo ++ [d.complaint] := by
  rw [answer, leading_tokens_append h, leading_of_finishes rfl, firstDiagnostic_tokens_append,
    List.append_nil]
  rfl

theorem stdout_answer (os : List Outcome) :
    Output.stdout (answer os) = lines ((leading os).map Token.render) := by
  rw [answer, Output.stdout_append, Output.stdout_complaints, String.append_empty, Output.stdout,
    List.map_map, lines, List.map_map]
  rfl

theorem stderr_answer (console : Console) (os : List Outcome) :
    Output.stderr console (answer os) =
      String.join ((firstDiagnostic os).toList.map (Diagnostic.shown console)) := by
  have hechoes : (leading os).map Token.echo = ((leading os).map Token.render).map .token := by
    rw [List.map_map]
    rfl
  rw [answer, hechoes, Output.stderr_append, Output.stderr_tokens, Output.stderr_complaints,
    String.empty_append]

/-! ## Scans of whole sources -/

theorem MunchFrom.not_isEnd {options : Options} {source : Bytes} {i : Nat} {slices : List Slice}
    (h : MunchFrom options source i slices) (file : Text) :
    ∀ p ∈ slices, ¬ (p.item source file).outcome.isEnd := by
  induction h with
  | done => simp
  | @next i start n more _ _ hlong _ ih =>
    rw [List.forall_mem_cons]
    refine ⟨fun hend => ?_, ih⟩
    have hne := hlong.lexeme.ne_nil
    revert hend
    simp only [Slice.item]
    cases hc : meaning options.strict ((source.drop start).take n) with
    | error cause => simp [Outcome.ofContent, Outcome.isEnd]
    | ok key =>
      intro hend
      obtain ⟨kind, payload⟩ := key
      have hkind : kind = .endOfInput := by
        simpa [Outcome.ofContent, Outcome.isEnd, Token.isEnd] using hend
      exact meaning_ne_end hne payload (hkind ▸ hc)

/-- Without the end, a scan has tokens only, or tokens up to a first diagnostic. -/
theorem tokens_or_error {os : List Outcome} (h : ∀ o ∈ os, ¬ o.isEnd) :
    ∃ ts : List Token, (∀ t ∈ ts, ¬ t.isEnd) ∧
      (os = ts.map .ok ∨ ∃ d more, os = ts.map .ok ++ .error d :: more) := by
  induction os with
  | nil => exact ⟨[], by simp, .inl rfl⟩
  | cons o os ih =>
    rw [List.forall_mem_cons] at h
    cases o with
    | error d => exact ⟨[], by simp, .inr ⟨d, os, rfl⟩⟩
    | ok t =>
      obtain ⟨ts, hts, hos⟩ := ih h.2
      refine ⟨t :: ts, List.forall_mem_cons.mpr ⟨h.1, hts⟩, ?_⟩
      rcases hos with rfl | ⟨d, more, rfl⟩
      · exact .inl rfl
      · exact .inr ⟨d, more, rfl⟩

theorem Lexer.exists_scan_eq (source : Bytes) (file : Text) (options : Options) :
    ∃ os, Lexer.scan source file options = os ++ [.finish source file] ∧
      ∃ ts : List Token, (∀ t ∈ ts, ¬ t.isEnd) ∧
        (os = ts.map .ok ∨ ∃ d more, os = ts.map .ok ++ .error d :: more) := by
  obtain ⟨slices, hmunch⟩ := Lexer.exists_munch source options
  refine ⟨_, Lexer.scan_of_munch file hmunch, tokens_or_error fun o ho => ?_⟩
  obtain ⟨p, hp, rfl⟩ := List.mem_map.mp ho
  exact hmunch.not_isEnd file p hp

namespace Command

open Lexer

theorem Mode.atLevel_ofListing (options : Options) (name : Text) (source : Bytes) :
    (Report.ofListing false (Mode.listing ⟨options, false⟩ name source)).output.atLevel false =
      answer (scan source name options) := by
  obtain ⟨houtput, hstopped⟩ := listing_eq false (start source name options)
  rw [Report.ofListing_eq, Output.atLevel_append, Output.atLevel_complaints]
  show Output.atLevel false (Lexer.listing false (start source name options)).output ++ _ = _
  rw [houtput]
  exact congrArg (fun d : Option Diagnostic => _ ++ d.toList.map Diagnostic.complaint) hstopped

end Command

/-! ## Sessions -/

namespace Piece

/-- The pieces around the answers of a session. -/
def isFrame : Piece → Bool
  | .greeting _ => true
  | .prompt => true
  | .farewell => true
  | _ => false

def isComplaint : Piece → Bool
  | .complaint _ => true
  | _ => false

end Piece

namespace Command

open Lexer

/-- What a session puts out behind its greetings. -/
def conversation (lines : List Bytes) (options : Options) : Output :=
  lines.flatMap (fun line => .prompt :: answer (scan line Mode.lineName options)) ++
    [.prompt, .farewell]

/-- The scans of some lines, each without its end. -/
def pooled (lines : List Bytes) (options : Options) : List Outcome :=
  lines.flatMap fun line => (scan line Mode.lineName options).dropLast

theorem conversation_cons (line : Bytes) (lines : List Bytes) (options : Options) :
    conversation (line :: lines) options =
      .prompt :: (answer (scan line Mode.lineName options) ++ conversation lines options) := by
  rw [conversation, List.flatMap_cons, List.append_assoc]
  rfl

theorem pooled_cons (line : Bytes) (lines : List Bytes) (options : Options) :
    pooled (line :: lines) options =
      (scan line Mode.lineName options).dropLast ++ pooled lines options :=
  List.flatMap_cons

/-- The tokens of all lines together, up to the first diagnostic, are those of the answers up to the
first complaint. -/
theorem echoes_eq (lines : List Bytes) (options : Options) {last : Token} (h : last.isEnd) :
    (leading (pooled lines options ++ [.ok last])).map Token.echo =
      ((conversation lines options).takeWhile fun p => !p.isComplaint).filter
        fun p => !p.isFrame := by
  induction lines with
  | nil => exact congrArg (List.map Token.echo) (@leading_of_finishes (.ok last) h [])
  | cons line lines ih =>
    obtain ⟨os, hscan, ts, hts, hos⟩ := exists_scan_eq line Mode.lineName options
    have hpassed : ∀ p ∈ ts.map Token.echo, !p.isComplaint := by
      intro p hp
      obtain ⟨t, -, rfl⟩ := List.mem_map.mp hp
      rfl
    have hkept : (ts.map Token.echo).filter (fun p => !p.isFrame) = ts.map Token.echo := by
      refine List.filter_eq_self.mpr fun p hp => ?_
      obtain ⟨t, -, rfl⟩ := List.mem_map.mp hp
      rfl
    rw [pooled_cons, conversation_cons, hscan, List.dropLast_concat,
      List.takeWhile_cons_of_pos rfl, List.filter_cons_of_neg (by simp [Piece.isFrame])]
    rcases hos with rfl | ⟨d, more, rfl⟩
    · -- no diagnostic in this line, so the others follow
      have hanswer : answer (ts.map .ok ++ [.finish line Mode.lineName]) = ts.map Token.echo :=
        answer_tokens hts rfl
      rw [hanswer, List.takeWhile_append_of_pos hpassed, List.filter_append, hkept, ← ih,
        List.append_assoc, leading_tokens_append hts, List.map_append]
    · have hanswer : answer (ts.map .ok ++ .error d :: more ++ [.finish line Mode.lineName]) =
          ts.map Token.echo ++ [d.complaint] := by
        rw [List.append_assoc, List.cons_append]
        exact answer_error hts d _
      have hleading : leading (ts.map .ok ++ .error d :: more ++ pooled lines options ++
          [.ok last]) = ts := by
        rw [List.append_assoc, List.append_assoc, leading_tokens_append hts, List.cons_append,
          leading_of_finishes rfl, List.append_nil]
      rw [hanswer, hleading, List.append_assoc, List.takeWhile_append_of_pos hpassed,
        List.filter_append, hkept]
      exact (List.append_nil _).symm

/-- The outcomes of a source are those of its lines, their places apart. -/
theorem content_pooled (source : Bytes) (file : Text) (options : Options) :
    (scan source file options).map Outcome.content =
      (pooled (Line.split source) options ++ [Outcome.finish source file]).map
        Outcome.content := by
  have hline : ∀ (i : Nat) (line : Bytes),
      ((scan line file options).dropLast.map (Outcome.relocate (.down i))).map Outcome.content =
        (scan line Mode.lineName options).dropLast.map Outcome.content := by
    intro i line
    rw [List.map_map, List.map_dropLast, List.map_dropLast, ← content_scan line file]
    exact congrArg List.dropLast (List.map_congr_left fun o _ => o.content_relocate _)
  rw [scan_eq_lineScans, lineScans, pooled, List.map_append, List.map_append, List.map_flatMap,
    List.map_flatMap]
  simp only [hline]
  conv_rhs => rw [← List.zipIdx_map_fst 0 (Line.split source), List.flatMap_map]

theorem firstDiagnostic_eq_none_iff (os : List Outcome) :
    firstDiagnostic os = none ↔ ∀ c ∈ os.map Outcome.content, ∃ key, c = .ok key := by
  rw [firstDiagnostic, List.findSome?_eq_none_iff, List.forall_mem_map]
  refine forall₂_congr fun o _ => ?_
  cases o with
  | error d => simp [Outcome.diagnostic?, Outcome.content]
  | ok t => simp [Outcome.diagnostic?, Outcome.content]

/-- A source without a diagnostic has none in any line. -/
theorem firstDiagnostic_line {source : Bytes} {file : Text} {options : Options}
    (h : firstDiagnostic (scan source file options) = none) :
    ∀ line ∈ Line.split source, firstDiagnostic (scan line Mode.lineName options) = none := by
  intro line hline
  obtain ⟨os, hscan, -⟩ := exists_scan_eq line Mode.lineName options
  have hos : ∀ o ∈ os, o ∈ pooled (Line.split source) options := by
    intro o ho
    refine List.mem_flatMap.mpr ⟨line, hline, ?_⟩
    rw [hscan, List.dropLast_concat]
    exact ho
  rw [firstDiagnostic_eq_none_iff, content_pooled, List.map_append, List.forall_mem_append,
    List.forall_mem_map] at h
  rw [firstDiagnostic_eq_none_iff, hscan, List.map_append, List.forall_mem_append,
    List.forall_mem_map]
  refine ⟨fun o ho => h.1 o (hos o ho), fun c hc => ?_⟩
  rw [List.mem_singleton.mp hc]
  exact ⟨_, rfl⟩

theorem complaints_answer (os : List Outcome) :
    (answer os).filter Piece.isComplaint =
      (firstDiagnostic os).toList.map Diagnostic.complaint := by
  have hechoes : ((leading os).map Token.echo).filter Piece.isComplaint = [] := by
    refine List.filter_eq_nil_iff.mpr fun p hp => ?_
    obtain ⟨t, -, rfl⟩ := List.mem_map.mp hp
    simp [Token.echo, Piece.isComplaint]
  rw [answer, List.filter_append, hechoes, List.nil_append]
  refine List.filter_eq_self.mpr fun p hp => ?_
  obtain ⟨d, -, rfl⟩ := List.mem_map.mp hp
  rfl

/-- The first diagnostics of the lines that have any. -/
def diagnostics (lines : List Bytes) (options : Options) : List Diagnostic :=
  lines.filterMap fun line => firstDiagnostic (scan line Mode.lineName options)

theorem diagnostics_cons (line : Bytes) (lines : List Bytes) (options : Options) :
    diagnostics (line :: lines) options =
      (firstDiagnostic (scan line Mode.lineName options)).toList ++ diagnostics lines options := by
  rw [diagnostics, diagnostics, List.filterMap_cons]
  cases firstDiagnostic (scan line Mode.lineName options) <;> rfl

theorem complaints_conversation (lines : List Bytes) (options : Options) :
    (conversation lines options).filter Piece.isComplaint =
      (diagnostics lines options).map Diagnostic.complaint := by
  induction lines with
  | nil => rfl
  | cons line lines ih =>
    rw [conversation_cons, List.filter_cons_of_neg (by simp [Piece.isComplaint]),
      List.filter_append, complaints_answer, ih, diagnostics_cons, List.map_append]

/-- Where no line has a diagnostic, a session does not complain. -/
theorem not_isComplaint_of_clean {lines : List Bytes} {options : Options}
    (h : diagnostics lines options = []) : ∀ p ∈ conversation lines options, !p.isComplaint := by
  have hcomplaints := complaints_conversation lines options
  rw [h, List.map_nil, List.filter_eq_nil_iff] at hcomplaints
  intro p hp
  simpa using hcomplaints p hp

theorem stdout_conversation (lines : List Bytes) (options : Options) :
    Output.stdout (conversation lines options) =
      String.join (lines.map fun line =>
        ">> " ++ MonkeyScan.lines ((leading (scan line Mode.lineName options)).map Token.render)) ++
        ">> \n" := by
  induction lines with
  | nil => rfl
  | cons line lines ih =>
    rw [conversation_cons, Output.stdout_cons, Output.stdout_append, stdout_answer, ih,
      List.map_cons, String.join_cons, String.append_assoc, String.append_assoc]
    rfl

theorem stderr_conversation (console : Console) (lines : List Bytes) (options : Options) :
    Output.stderr console (conversation lines options) =
      String.join ((diagnostics lines options).map (Diagnostic.shown console)) := by
  induction lines with
  | nil => rfl
  | cons line lines ih =>
    rw [conversation_cons, Output.stderr_cons, Output.stderr_append, stderr_answer, ih,
      diagnostics_cons, List.map_append, String.join_append]
    exact String.empty_append

/-! ## Reports -/

theorem report_file (input : Bytes) (options : Options) (name : Text) (source : Bytes) :
    ((Task.file ⟨options, false⟩ name source).report input).output =
      answer (scan source name options) := by
  rw [← Mode.atLevel_ofListing]
  simp only [Task.report, Task.report.shown, Mode.file, Report.after]
  rw [Output.atLevel_append]
  cases (Mode.listing ⟨options, false⟩ name source).stoppedBy with
  | none =>
    rw [Output.atLevel_append]
    exact List.append_nil _
  | some d => rfl

theorem report_interactive (options : Options) (source : Bytes) :
    (Task.interactive ⟨options, false⟩).report source =
      ⟨.success, greetings.map .greeting ++ conversation (Line.split source) options⟩ := by
  have hanswers : ∀ lines : List Bytes,
      Output.atLevel false (lines.flatMap fun line =>
          .prompt :: Mode.respond ⟨options, false⟩ line) =
        lines.flatMap fun line => .prompt :: answer (scan line Mode.lineName options) := by
    intro lines
    induction lines with
    | nil => rfl
    | cons line lines ih =>
      rw [List.flatMap_cons, List.flatMap_cons, Output.atLevel_append, ih,
        ← Mode.atLevel_ofListing]
      rfl
  simp only [Task.report, Task.report.shown, Mode.interactive]
  rw [Output.atLevel_append, Output.atLevel_append, hanswers, List.append_assoc]
  rfl

/-- The listing of a file and a session, both on one source and without records. -/
structure Agree (console : Console) (options : Options) (name : Text) (source : Bytes)
    (byFile byLine : Report) : Prop where
  /-- A source is scanned line by line, under any name. -/
  scans : ∀ file, scan source file options =
    lineScans source 0 file options ++ [Outcome.finish source file]
  file : byFile.output = answer (scan source name options)
  /-- Each line is answered by itself, whatever the lines before it hold. -/
  session : byLine =
    ⟨.success, greetings.map .greeting ++ conversation (Line.split source) options⟩
  stdout_file : byFile.stdout = lines ((leading (scan source name options)).map Token.render)
  stdout_session : byLine.stdout = lines greetings ++
    (String.join ((Line.split source).map fun line =>
      ">> " ++ lines ((leading (scan line Mode.lineName options)).map Token.render)) ++ ">> \n")
  /-- One message for each line with a diagnostic, that of the first one in this line. -/
  stderr : byLine.stderr console =
    String.join ((diagnostics (Line.split source) options).map (Diagnostic.shown console))
  /-- A message without an escape character goes out as it is, on lines of its own. -/
  shown : ∀ d ∈ diagnostics (Line.split source) options, Plain d.render →
    d.shown console = d.render.spelled ++ "\n"
  stdout : byFile.stdout =
    Output.stdout ((byLine.output.takeWhile fun p => !p.isComplaint).filter fun p => !p.isFrame)
  stdout_of_clean : firstDiagnostic (scan source name options) = none →
    byFile.stdout = Output.stdout (byLine.output.filter fun p => !p.isFrame)

theorem stdout_answer_pieces (source : Bytes) (name : Text) (options : Options) :
    Output.stdout (answer (scan source name options)) = Output.stdout
      (((conversation (Line.split source) options).takeWhile fun p => !p.isComplaint).filter
        fun p => !p.isFrame) := by
  have hechoes := (echoes_congr (content_pooled source name options)).trans
    (echoes_eq (Line.split source) options rfl)
  rw [← hechoes, answer, Output.stdout_append, Output.stdout_complaints, String.append_empty]

/-- Without records, the listing of a file shows what a session answers to its lines, up to the
first complaint; and the session complains once about each line with a diagnostic. -/
theorem session_agrees_with_file {console : Console} (hconsole : console.KeepsPlain)
    (options : Options) (name : Text) (source input : Bytes) :
    Agree console options name source ((Task.file ⟨options, false⟩ name source).report input)
      ((Task.interactive ⟨options, false⟩).report source) := by
  have hfile := report_file input options name source
  have hsession := report_interactive options source
  have hgreeted : ∀ p ∈ greetings.map Piece.greeting, !p.isComplaint := by decide
  have hstdout : ((Task.file ⟨options, false⟩ name source).report input).stdout = Output.stdout
      ((((Task.interactive ⟨options, false⟩).report source).output.takeWhile
        fun p => !p.isComplaint).filter fun p => !p.isFrame) := by
    rw [Report.stdout, hfile, hsession, stdout_answer_pieces, List.takeWhile_append_of_pos hgreeted,
      List.filter_append]
    rfl
  refine ⟨fun file => scan_eq_lineScans source file options, hfile, hsession, ?_, ?_, ?_,
    fun d _ hplain => d.shown_of_plain hconsole hplain, hstdout, ?_⟩
  · rw [Report.stdout, hfile, stdout_answer]
  · rw [Report.stdout, hsession, Output.stdout_append, stdout_conversation]
    rfl
  · rw [Report.stderr, hsession, Output.stderr_append, stderr_conversation]
    exact String.empty_append
  · intro hclean
    have hnone : diagnostics (Line.split source) options = [] :=
      List.filterMap_eq_nil_iff.mpr (firstDiagnostic_line hclean)
    have hpassed : ∀ p ∈ ((Task.interactive ⟨options, false⟩).report source).output,
        !p.isComplaint := by
      rw [hsession]
      exact List.forall_mem_append.mpr ⟨hgreeted, not_isComplaint_of_clean hnone⟩
    rw [hstdout, List.takeWhile_eq_self_iff.mpr hpassed]

/-- Two lines for a strict session. It complains about the first of them, and goes on. -/
theorem session_agrees_with_file_stray :
    let source : Bytes := [120, 64, 10, 53]
    let byLine := (Task.interactive ⟨⟨false, true⟩, false⟩).report source
    Console.piped.KeepsPlain ∧
      Agree .piped ⟨false, true⟩ "x.mk" source
        ((Task.file ⟨⟨false, true⟩, false⟩ "x.mk" source).report []) byLine ∧
      byLine.stderr .piped =
        "<stdin>:1:2: error: invalid character '@' (0x40)\n    x@\n     ^\n" :=
  ⟨Console.keepsPlain_piped, session_agrees_with_file Console.keepsPlain_piped _ _ _ _,
    by decide +kernel⟩

/-- A line that a strict session complains about with a message other than its own: the control
sequence that it quotes does not reach a pipe. -/
theorem session_message_stripped :
    let source : Bytes := [27, 91, 109, 10]
    ∃ d, diagnostics (Line.split source) ⟨false, true⟩ = [d] ∧
      d.render.spelled = "<stdin>:1:1: error: invalid byte 0x1B\n    \x1b[m\n    ^" ∧
      ((Task.interactive ⟨⟨false, true⟩, false⟩).report source).stderr .piped ≠
        d.render.spelled ++ "\n" :=
  ⟨⟨.invalidCharacter 27, some ⟨Mode.lineName, 1, 1⟩, some "\x1b[m"⟩, by decide +kernel,
    by decide +kernel, by decide +kernel⟩

end Command

end MonkeyScan
