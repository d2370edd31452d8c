import StyleAudit.Proofs.LineTable
import StyleAudit.Proofs.Lookahead
import StyleAudit.Source.Stepping

/-!
# Reading step by step reads the whole source

There are two readers of tokens. `tokenize` cuts the whole source into lexemes
and gives them positions afterwards; `readToken` reads one token where a cursor
stands and moves the cursor. This file shows that a cursor that starts at the
front and is stepped until it meets the end reads exactly the tokens of the
first reader, and finds the same errors.

Both rest on `scan`. What has to be bridged is that the stepping reader works on
indices into the source and not on what is left of it, and that it looks for two
things in the source itself: the end of a comment, and the marks that hide a
stylesheet in another document. Inside the source both come to the same, because
there the text ahead of a cursor is the rest of the source.
-/

namespace StyleAudit

/-! ## Cursors inside a list -/

namespace Cursor

variable {α : Type}

/-- The cursor between what has been read of a list and what has not. -/
def between (before after : List α) : Cursor α :=
  ⟨before ++ after, before.length⟩

@[simp] theorem between_items (before after : List α) :
    (between before after).items = before ++ after := rfl

@[simp] theorem between_index (before after : List α) :
    (between before after).index = before.length := rfl

theorem isLost_between (before after : List α) :
    (between before after).isLost = false := by
  rw [isLost, isLostAt, decide_eq_false_iff_not, between_items, between_index]
  omega

theorem onwards_between (before after : List α) (n : Nat) :
    (between before after).onwards (before.length + n) = after.drop n := by
  have hpos : ¬ (before.length + n : Int) < 0 := by omega
  have hnat : (before.length + n : Int).toNat = before.length + n := by omega
  rw [onwards, if_neg hpos, hnat, between_items, List.drop_length_add_append]

theorem ahead_between (before after : List α) :
    (between before after).ahead = after := by
  have hpos : ¬ (between before after).index < 0 := by
    rw [between_index]
    omega
  rw [ahead, if_neg hpos]
  exact onwards_between before after 0

theorem leave_between (before after rest : List α) :
    (between before after).leave rest =
      ⟨before ++ after, (before.length + (after.length - rest.length) : Nat)⟩ := by
  rw [leave, ahead_between, between_index, Int.natCast_add]
  rfl

end Cursor

namespace Source

open Cursor (between)
open Position (start)

theorem position_of_le (before : Text) {after : Text} {n : Nat}
    (hn : n ≤ after.length) :
    position ⟨before ++ after, (before.length + n : Nat)⟩ =
      (start.advance before).advance (after.take n) := by
  have hlen : (before ++ after.take n).length = before.length + n := by
    rw [List.length_append, List.length_take_of_le hn]
  have hsplit : before ++ after = (before ++ after.take n) ++ after.drop n := by
    rw [List.append_assoc, List.take_append_drop]
  rw [position, Position.ofIndex_natCast, hsplit, ← hlen, Position.ofOffset_append,
    Position.advance_append]

theorem position_between (before after : Text) :
    position (between before after) = start.advance before := by
  have h := position_of_le before (Nat.zero_le after.length)
  rwa [List.take_zero, Position.advance_nil, Nat.add_zero] at h

theorem position_leave (before after rest : Text) :
    position ((between before after).leave rest) =
      (start.advance before).advance (consumed after rest) := by
  rw [Cursor.leave_between, position_of_le before (Nat.sub_le _ _),
    consumed]

theorem leave_eq_between (before : Text) {after rest : Text}
    (h : rest <:+ after) :
    (between before after).leave rest =
      between (before ++ consumed after rest) rest := by
  have hlen : (consumed after rest).length = after.length - rest.length :=
    List.length_take_of_le (Nat.sub_le _ _)
  rw [Cursor.leave_between, between, List.append_assoc, consumed_append h,
    List.length_append, hlen]

/-! ## One step -/

/-- The step of a cursor over what a scan read. -/
def Scan.step (s : Scan) (before t : Text) : Step Token :=
  ⟨.ok ((s.lexeme t).token (start.advance before)),
    (s.lexeme t).error? (start.advance before),
    between (before ++ (s.lexeme t).slice) s.rest⟩

theorem closeComment?_eq {t text after : Text}
    (h : closeComment? t = some (text, after)) :
    t = text ++ '*' :: '/' :: after := by
  induction t generalizing text after with
  | nil => cases h
  | cons c rest ih =>
      unfold closeComment? at h
      split at h
      · next hmark =>
          cases h
          rw [Bool.and_eq_true, decide_eq_true_eq, decide_eq_true_eq] at hmark
          obtain ⟨rfl, hhead⟩ := hmark
          obtain ⟨tail, rfl⟩ := List.head?_eq_some_iff.1 hhead
          rfl
      · obtain ⟨⟨text', after'⟩, hrest, heq⟩ := Option.map_eq_some_iff.1 h
        cases heq
        rw [ih hrest]
        rfl

theorem consumed_of_append (mid rest : Text) :
    consumed (mid ++ rest) rest = mid := by
  rw [consumed, List.length_append, Nat.add_sub_cancel, List.take_left]

/-- The cursor behind a piece of the source, given by what follows it. -/
theorem stop_eq_between (before mid after : Text) :
    (⟨before ++ (mid ++ after),
      ((before ++ (mid ++ after)).length - after.length : Nat)⟩ : Cursor Char) =
      between (before ++ mid) after := by
  have hlen : (before ++ (mid ++ after)).length - after.length =
      (before ++ mid).length := by
    rw [← List.append_assoc, List.length_append, Nat.add_sub_cancel]
  rw [hlen, between, List.append_assoc]

theorem slice_between (before mid after : Text) :
    ((before ++ (mid ++ after)).take
        ((before ++ (mid ++ after)).length - after.length)).drop
      ((before ++ (mid ++ after)).length - (mid ++ after).length) = mid := by
  have htake : (before ++ (mid ++ after)).length - after.length =
      (before ++ mid).length := by
    rw [← List.append_assoc, List.length_append, Nat.add_sub_cancel]
  have hdrop : (before ++ (mid ++ after)).length - (mid ++ after).length =
      before.length := by
    rw [List.length_append, Nat.add_sub_cancel]
  rw [htake, hdrop, ← List.append_assoc, List.take_left, List.drop_left]

/-- The comment reader of a cursor, once the place where the comment stops is
known. -/
theorem readComment_between (before rest : Text) :
    readComment (between before ('/' :: '*' :: rest)) =
      (scanComment rest).step before ('/' :: '*' :: rest) := by
  have hbehind : (between before ('/' :: '*' :: rest)).onwards
      ((between before ('/' :: '*' :: rest)).index + 2) = rest :=
    Cursor.onwards_between before ('/' :: '*' :: rest) 2
  have hahead : (between before ('/' :: '*' :: rest)).onwards
      (between before ('/' :: '*' :: rest)).index = '/' :: '*' :: rest :=
    Cursor.onwards_between before ('/' :: '*' :: rest) 0
  unfold readComment scanComment
  simp only [hbehind, hahead, tokenBetween, position_between,
    Cursor.between_items]
  cases hclose : closeComment? rest with
  | none =>
      have hforth : position (between before ('/' :: '*' :: rest)).forth =
          (start.advance before).advance ['/'] :=
        position_of_le before (n := 1) (Nat.le_add_left 1 _)
      have hstop := stop_eq_between before ('/' :: '*' :: rest) []
      have htext := slice_between before ('/' :: '*' :: rest) []
      have hflaw : consumed ('/' :: '*' :: rest) ('*' :: rest) = ['/'] :=
        consumed_of_append ['/'] ('*' :: rest)
      have hslice := consumed_of_append ('/' :: '*' :: rest) []
      simp only [List.append_nil, List.length_nil, Nat.sub_zero] at hstop htext hslice
      simp only [hstop, Int.toNat_natCast, htext, position_between, hforth,
        Scan.step, Scan.lexeme, hslice, hflaw, Option.map_some, Lexeme.token,
        Lexeme.error?, Position.advance_append]
  | some found =>
      obtain ⟨text, after⟩ := found
      have hcomment : '/' :: '*' :: rest =
          ('/' :: '*' :: text ++ ['*', '/']) ++ after := by
        rw [closeComment?_eq hclose]
        simp
      rw [hcomment]
      simp only [stop_eq_between, Int.toNat_natCast, slice_between,
        position_between, Scan.sound, Scan.step, Scan.lexeme,
        consumed_of_append, Option.map_none, Lexeme.token, Lexeme.error?,
        Position.advance_append]

/-! ## Marks -/

/-- Inside the source a mark is always found where it was scanned. -/
theorem scanMark_self (c : Char) (rest : Text) :
    scanMark rest c rest = scan c rest := by
  unfold scanMark
  simp only []
  rw [if_neg]
  intro h
  rw [Bool.and_eq_true, Bool.or_eq_true, decide_eq_true_eq, decide_eq_true_eq] at h
  obtain ⟨hkind, hmissing⟩ := h
  have hmark : reader (scan c rest).kind = .mark := by
    rcases hkind with hkind | hkind <;> rw [hkind] <;> rfl
  rw [(isPrefixOf_of_mark hmark).2] at hmissing
  cases hmissing

/-! ## Steps and runs -/

theorem readToken_between_nil (before : Text) :
    readToken (between before []) =
      ⟨.ok ⟨.eof, ⟨start.advance before, start.advance before⟩⟩, none,
        between before []⟩ := by
  rw [readToken, Cursor.isLost_between, Cursor.ahead_between, tokenBetween,
    position_between]
  rfl

/-- One step of a cursor reads what a scan of the text ahead reads. -/
theorem readToken_between_cons (before : Text) (c : Char) (rest : Text) :
    readToken (between before (c :: rest)) =
      (scan c rest).step before (c :: rest) := by
  rw [readToken, Cursor.isLost_between, Cursor.ahead_between]
  simp only [Bool.false_eq_true, if_false]
  split
  · next hcomment =>
      have hscan : scan c rest = scanComment (rest.drop 1) := by
        rw [scan, if_pos hcomment]
      rw [Bool.and_eq_true, decide_eq_true_eq, decide_eq_true_eq] at hcomment
      obtain ⟨rfl, hhead⟩ := hcomment
      obtain ⟨tail, rfl⟩ := List.head?_eq_some_iff.1 hhead
      rw [hscan]
      exact readComment_between before tail
  · have honwards : (between before (c :: rest)).onwards
        ((between before (c :: rest)).index + 1) = rest :=
      Cursor.onwards_between before (c :: rest) 1
    have hleave := leave_eq_between before
      ((scan_suffix c rest).trans (List.suffix_cons c rest))
    rw [honwards, scanMark_self, tokenBetween, position_between, hleave,
      position_between, Position.advance_append, Scan.step, Scan.lexeme]
    simp only [position_leave, Lexeme.token, Lexeme.error?, Option.map_map]
    rfl

/-- From an index inside a text a step reads what a scan reads there. -/
theorem readToken_index {text : Text} {i : Nat} (hi : i < text.length) :
    ∃ c rest, text = text.take i ++ c :: rest ∧
      readToken ⟨text, i⟩ = (scan c rest).step (text.take i) (c :: rest) := by
  obtain ⟨c, rest, hahead⟩ : ∃ c rest, text.drop i = c :: rest :=
    List.exists_cons_of_ne_nil fun hnil => absurd (List.drop_eq_nil_iff.1 hnil) (by omega)
  have htext : text = text.take i ++ c :: rest := by rw [← hahead, List.take_append_drop]
  have hcursor : (⟨text, i⟩ : Cursor Char) = between (text.take i) (c :: rest) := by
    rw [between, ← htext, List.length_take_of_le (by omega)]
  exact ⟨c, rest, htext, hcursor ▸ readToken_between_cons _ c rest⟩

/-- The run of a cursor: step after step until a token marks the end, with the
tokens read and the errors found on the way. -/
inductive Reads : Cursor Char → List Token → List SyntaxError → Prop where
  | stop {c : Cursor Char} {t : Token} (hstep : readToken c = ⟨.ok t, none, c⟩)
      (hkind : t.kind = .eof) : Reads c [t] []
  | step {c next : Cursor Char} {t : Token} {error? : Option SyntaxError}
      {tokens : List Token} {errors : List SyntaxError}
      (hstep : readToken c = ⟨.ok t, error?, next⟩) (hkind : t.kind ≠ .eof)
      (hrest : Reads next tokens errors) :
      Reads c (t :: tokens) (error?.toList ++ errors)

theorem reads_lexemes (before after : Text) :
    Reads (between before after)
      (place (start.advance before) (lexemes after)).tokens
      (place (start.advance before) (lexemes after)).errors := by
  induction after using lexemes.induct generalizing before with
  | case1 =>
      rw [lexemes_nil]
      exact .stop (readToken_between_nil before) rfl
  | case2 c rest _ ih =>
      rw [lexemes_cons]
      have h := ih (before ++ ((scan c rest).lexeme (c :: rest)).slice)
      rw [Position.advance_append] at h
      exact .step (readToken_between_cons before c rest)
        (scan_kind_ne_eof c rest) h

/-- Stepping through a source from its front reads its tokens and finds its
errors. -/
theorem reads_tokenize (source : Text) :
    Reads (cursor source) (tokenize source).tokens (tokenize source).errors :=
  reads_lexemes [] (normalize source)

end Source

end StyleAudit
