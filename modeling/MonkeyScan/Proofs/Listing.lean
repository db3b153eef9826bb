import MonkeyScan.Command.Report
import MonkeyScan.Proofs.Placement
import MonkeyScan.Proofs.Plain

/-!
# MonkeyScan.Proofs.Listing

What listings put out, by the scans they are made from: the tokens of a scan before its first
diagnostic (`leading`, `firstDiagnostic`), and then the message of this one as the console shows it
(`Diagnostic.shown`).

* `Lexer.listing_eq`: a listing stops where the tokens of the scan do.
* `Command.Report.ofListing_eq`: the diagnostic that stopped a listing decides the exit code.
-/

namespace MonkeyScan

/-! ## What a scan puts out -/

/-- The tokens of a scan before the first outcome that stops a listing. -/
def leading (outcomes : List Outcome) : List Token :=
  (outcomes.takeWhile fun o => !o.finishes).filterMap Except.toOption

def Outcome.diagnostic? : Outcome → Option Diagnostic
  | .ok _ => none
  | .error d => some d

def firstDiagnostic (outcomes : List Outcome) : Option Diagnostic :=
  outcomes.findSome? Outcome.diagnostic?

def Diagnostic.complaint (d : Diagnostic) : Piece := .complaint (d.render ++ "\n")

theorem leading_of_finishes {o : Outcome} (h : o.finishes) (os : List Outcome) :
    leading (o :: os) = [] := by
  rw [leading, List.takeWhile_cons_of_neg (by simp [h]), List.filterMap_nil]

theorem leading_token_cons {t : Token} (h : ¬ t.isEnd) (os : List Outcome) :
    leading (.ok t :: os) = t :: leading os := by
  rw [leading, List.takeWhile_cons_of_pos (by simpa [Outcome.finishes] using h)]
  rfl

/-! ## Texts -/

/-- Some texts, each as a line. -/
def lines (texts : List String) : String :=
  String.join (texts.map (· ++ "\n"))

theorem lines_cons (text : String) (texts : List String) :
    lines (text :: texts) = text ++ "\n" ++ lines texts := by
  simp [lines, String.join_cons]

/-- The message of a diagnostic as it comes out of the console, surrogates spelled by their numbers. -/
def Diagnostic.shown (console : Console) (d : Diagnostic) : String :=
  (console.strip (d.render ++ "\n")).spelled

theorem Diagnostic.shown_of_plain {console : Console} (hconsole : console.KeepsPlain)
    {d : Diagnostic} (h : Plain d.render) : d.shown console = d.render.spelled ++ "\n" := by
  have hend : Plain "\n" := by decide
  rw [shown, hconsole _ (h.append hend), Text.spelled_append, Text.spelled_ofString]

namespace Output

variable (console : Console)

theorem stdout_cons (p : Piece) (out : Output) : stdout (p :: out) = p.stdout ++ out.stdout := by
  simp [stdout, String.join_cons]

theorem stderr_cons (p : Piece) (out : Output) :
    stderr console (p :: out) = p.stderr console ++ out.stderr console := by
  simp [stderr, String.join_cons]

theorem stdout_append (out more : Output) : (out ++ more).stdout = out.stdout ++ more.stdout := by
  simp [stdout, String.join_append]

theorem stderr_append (out more : Output) :
    (out ++ more).stderr console = out.stderr console ++ more.stderr console := by
  simp [stderr, String.join_append]

theorem stdout_complaints (ds : List Diagnostic) : stdout (ds.map Diagnostic.complaint) = "" := by
  induction ds with
  | nil => rfl
  | cons d ds ih => exact ih

theorem stderr_complaints (ds : List Diagnostic) :
    stderr console (ds.map Diagnostic.complaint) =
      String.join (ds.map (Diagnostic.shown console)) := by
  rw [stderr, List.map_map]
  rfl

theorem stderr_tokens (texts : List String) : stderr console (texts.map Piece.token) = "" := by
  induction texts with
  | nil => rfl
  | cons text texts ih => exact ih

theorem atLevel_append (verbose : Bool) (out more : Output) :
    atLevel verbose (out ++ more) = atLevel verbose out ++ atLevel verbose more := by
  cases verbose with
  | true => rfl
  | false => exact List.filter_append out more

theorem atLevel_records (events : List Event) :
    atLevel false (events.map Piece.record) = [] := by
  refine List.filter_eq_nil_iff.mpr fun p hp => ?_
  obtain ⟨e, -, rfl⟩ := List.mem_map.mp hp
  simp [Piece.isRecord]

theorem atLevel_complaints (verbose : Bool) (ds : List Diagnostic) :
    atLevel verbose (ds.map Diagnostic.complaint) = ds.map Diagnostic.complaint := by
  cases verbose with
  | true => rfl
  | false =>
    refine List.filter_eq_self.mpr fun p hp => ?_
    obtain ⟨d, -, rfl⟩ := List.mem_map.mp hp
    rfl

end Output

/-! ## Listings -/

namespace Lexer

theorem listing_eq_end {lx : Lexer} (located : Bool)
    (h : lx.cursor.rest.dropWhile Byte.isBlank = []) : lx.listing located = ⟨[], 0, none⟩ := by
  have hnext := next_eq_end h
  rw [listing]
  split
  · rename_i d hd
    rw [hnext] at hd
    cases hd
  · rename_i t ht
    rw [hnext] at ht ⊢
    cases ht
    rfl

theorem listing_eq_error {lx : Lexer} {d : Diagnostic} (located : Bool)
    (h : lx.next.result = .error d) :
    lx.listing located = ⟨lx.next.events.map .record, 0, some d⟩ := by
  rw [listing]
  split
  · rename_i d' hd
    rw [h] at hd
    cases hd
    rfl
  · rename_i t ht
    rw [h] at ht
    cases ht

theorem listing_eq_token {lx : Lexer} {t : Token} (located : Bool) (h : lx.next.result = .ok t)
    (ht : ¬ t.isEnd) :
    lx.listing located = ⟨lx.next.events.map .record ++ .token (t.display located) ::
        (lx.next.lexer.listing located).output,
      (lx.next.lexer.listing located).count + 1, (lx.next.lexer.listing located).stoppedBy⟩ := by
  rw [listing]
  split
  · rename_i d hd
    rw [h] at hd
    cases hd
  · rename_i t' ht'
    rw [h] at ht'
    cases ht'
    simp only [ht]
    rfl

/-- A listing stops where the tokens of the scan do. -/
theorem listing_eq (located : Bool) (lx : Lexer) :
    (lx.listing located).output.atLevel false =
        (leading (lx.items.result.map Item.outcome)).map (fun t => .token (t.display located)) ∧
      (lx.listing located).stoppedBy = firstDiagnostic (lx.items.result.map Item.outcome) := by
  induction lx using scan_induction with
  | done lx h =>
    rw [listing_eq_end located h, items_eq_end h, List.map_singleton, leading_of_finishes rfl]
    exact ⟨rfl, rfl⟩
  | step lx l b more h ih =>
    rw [h.items_eq, List.map_cons]
    cases hr : lx.next.result with
    | error d =>
      rw [listing_eq_error located hr, leading_of_finishes rfl]
      exact ⟨Output.atLevel_records _, rfl⟩
    | ok t =>
      have ht := h.not_isEnd_of_ok hr
      rw [listing_eq_token located hr ht, leading_token_cons ht]
      refine ⟨?_, ih.2⟩
      rw [Output.atLevel_append, Output.atLevel_records, List.map_cons, ← ih.1]
      rfl

end Lexer

namespace Command

/-- The exit code for a scan, by its first diagnostic. -/
def exitOf : Option Diagnostic → ExitCode
  | none => .success
  | some _ => .scanError

theorem Report.ofFailure_lexical (verbose : Bool) (d : Diagnostic) :
    Report.ofFailure verbose (.lexical d) = ⟨.scanError, [d.complaint]⟩ := by
  cases verbose <;> rfl

theorem Report.ofListing_eq (verbose : Bool) (l : Listing) :
    Report.ofListing verbose l =
      ⟨exitOf l.stoppedBy, l.output ++ l.stoppedBy.toList.map Diagnostic.complaint⟩ := by
  rw [Report.ofListing]
  cases l.stoppedBy with
  | none => rfl
  | some d => exact congrArg (Report.after l.output) (Report.ofFailure_lexical verbose d)

end Command

end MonkeyScan
