import StyleAudit.Audit.Walk
import StyleAudit.Source.Stepping

/-!
# How the ends of lines are written

The end of a line is written as a line feed, as a return with a line feed, as a
return alone or as a form feed. A source is put into a normal form before anything
is read of it, and there each of these is one line feed. So it makes no difference
how lines end: where sources differ in this alone their normal form is the same, and
with it every token and every place, also where a line ends inside a string, in a
comment or behind a backslash.

One way need not be kept to throughout. All that has to be looked after is that a
return which stands for the end of a line is not taken together with the line feed
that stands for the next; with this left out, `Written` mixes the four ways. Where
all ends are written alike it cannot happen.
-/

namespace StyleAudit

/-- The ways of writing the end of a line. -/
inductive LineEnd where
  | lineFeed
  | pair
  | carriageReturn
  | formFeed
deriving DecidableEq, Repr

namespace LineEnd

/-- The end of a line as it is written. -/
def text : LineEnd → Text
  | lineFeed => ['\n']
  | pair => ['\r', '\n']
  | carriageReturn => ['\r']
  | formFeed => ['\x0c']

/-- A text with every line feed in it written in one way. -/
def write (e : LineEnd) (t : Text) : Text :=
  t.flatMap fun c => if c = '\n' then e.text else [c]

theorem write_cons_lineFeed (e : LineEnd) (t : Text) :
    e.write ('\n' :: t) = e.text ++ e.write t := by
  rw [write, List.flatMap_cons, if_pos rfl, write]

theorem write_cons (e : LineEnd) {c : Char} (h : c ≠ '\n') (t : Text) :
    e.write (c :: t) = c :: e.write t := by
  rw [write, List.flatMap_cons, if_neg h, List.singleton_append, write]

/-- Where returns alone end the lines, no line feed is left. -/
theorem head?_write_carriageReturn (t : Text) :
    (carriageReturn.write t).head? ≠ some '\n' := by
  cases t with
  | nil => exact nofun
  | cons c t =>
      by_cases hc : c = '\n'
      · rw [hc, write_cons_lineFeed, text, List.singleton_append, List.head?_cons]
        decide
      · rw [write_cons carriageReturn hc, List.head?_cons]
        exact fun h => hc (Option.some.inj h)

end LineEnd

namespace Source

/-- The second text is the first with each line feed written in some way; what stands
for a line feed as a return alone is not followed by a line feed. -/
inductive Written : Text → Text → Prop where
  | nil : Written [] []
  | other {c : Char} {s w : Text} (hline : c ≠ '\n') (hreturn : c ≠ '\r')
      (hrest : Written s w) : Written (c :: s) (c :: w)
  | lineEnd (e : LineEnd) {s w : Text}
      (halone : e = .carriageReturn → w.head? ≠ some '\n')
      (hrest : Written s w) : Written ('\n' :: s) (e.text ++ w)

/-- In normal form, the end of a line is one line feed, however it is written. -/
theorem normalize_lineEnd (e : LineEnd) {w : Text}
    (halone : e = .carriageReturn → w.head? ≠ some '\n') :
    normalize (e.text ++ w) = '\n' :: normalize w := by
  cases e with
  | lineFeed => exact normalize_cons (by decide) w
  | pair => exact normalize_pair w
  | carriageReturn => exact normalize_return (halone rfl)
  | formFeed => exact normalize_cons (by decide) w

/-- However its lines end, a text has one normal form. -/
theorem Written.normalize_eq {s w : Text} (h : Written s w) :
    normalize w = normalize s := by
  induction h with
  | nil => rfl
  | other _ hreturn _ ih => rw [normalize_cons hreturn, normalize_cons hreturn, ih]
  | lineEnd e halone _ ih =>
      rw [normalize_lineEnd e halone, ih]
      exact (normalize_lineEnd .lineFeed nofun).symm

theorem written_write (e : LineEnd) {s : Text} (h : '\r' ∉ s) :
    Written s (e.write s) := by
  induction s with
  | nil => exact .nil
  | cons c s ih =>
      rw [List.mem_cons, not_or] at h
      by_cases hc : c = '\n'
      · rw [hc, e.write_cons_lineFeed]
        refine .lineEnd e (fun halone => ?_) (ih h.2)
        rw [halone]
        exact LineEnd.head?_write_carriageReturn s
      · rw [e.write_cons hc]
        exact .other hc (Ne.symm h.1) (ih h.2)

end Source

namespace Audit

open Source (tokenize cursor)

/-- Line feeds can all be written as returns with line feeds, as returns or as form
feeds: what is read of a source without returns is the same, as a whole or step by
step, and so are the stylesheet, the errors and the diagnostics. -/
theorem line_ends_immaterial (e : LineEnd) {s : Text} (h : '\r' ∉ s) :
    cursor (e.write s) = cursor s ∧
    tokenize (e.write s) = tokenize s ∧
    (∀ mode, Stylesheet.parse mode (e.write s) = Stylesheet.parse mode s) ∧
    ∀ (a : Audit) mode, a.lint mode (e.write s) = a.lint mode s := by
  have hnormal := (Source.written_write e h).normalize_eq
  have htokens : tokenize (e.write s) = tokenize s := by
    rw [tokenize, hnormal, tokenize]
  have hparse (mode : Mode) :
      Stylesheet.parse mode (e.write s) = Stylesheet.parse mode s := by
    rw [Stylesheet.parse, htokens, Stylesheet.parse]
  refine ⟨?_, htokens, hparse, fun a mode => ?_⟩
  · rw [cursor, hnormal, cursor]
  · rw [lint, hparse, lint]

/-- Two ends of lines behind one another, one in a string behind a backslash and one
that breaks a string, all written as pairs. -/
theorem line_ends_immaterial_pairs :
    '\r' ∉ "a\n\n\x7bb:\"c\\\nd\ne".toList ∧
    LineEnd.pair.write "a\n\n\x7bb:\"c\\\nd\ne".toList =
      "a\r\n\r\n\x7bb:\"c\\\r\nd\r\ne".toList ∧
    tokenize "a\r\n\r\n\x7bb:\"c\\\r\nd\r\ne".toList =
      tokenize "a\n\n\x7bb:\"c\\\nd\ne".toList ∧
    Stylesheet.parse .strict "a\r\n\r\n\x7bb:\"c\\\r\nd\r\ne".toList =
      Stylesheet.parse .strict "a\n\n\x7bb:\"c\\\nd\ne".toList := by
  have hreturn : '\r' ∉ "a\n\n\x7bb:\"c\\\nd\ne".toList := by decide
  have hwritten : LineEnd.pair.write "a\n\n\x7bb:\"c\\\nd\ne".toList =
      "a\r\n\r\n\x7bb:\"c\\\r\nd\r\ne".toList := by decide
  have h := line_ends_immaterial .pair hreturn
  rw [hwritten] at h
  exact ⟨hreturn, hwritten, h.2.1, h.2.2.1 .strict⟩

end Audit

end StyleAudit
