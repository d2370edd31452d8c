import StyleAudit.Encoding

/-!
# The encoding that a stylesheet names

A stylesheet that names its encoding is read by the encoding of that name, which may
fail in three ways. The name itself is a fourth thing that can be in the way: it has to
be in ASCII, and to be without the code point zero.

It is looked up in small letters, so that what is asked of the bytes of the name has to
be asked of their small forms too. In ASCII these are code points one by one, zero is
its own, and no other code point has zero for its own; that is all there is to it.
Among all encodings that come from outside, the two failures that nothing takes care of
are thereby told from the bytes: `decodeWith_eq_invalidName_iff` and
`decodeWith_eq_other_iff`.
-/

namespace StyleAudit

/-! ## The code point zero in small letters -/

namespace Text

theorem ofNat_eq_zero_iff : ∀ n < 128, Char.ofNat n = '\x00' ↔ n = 0 := by
  decide

/-- The runs that start in ASCII have their small forms there, and leave zero out. -/
theorem small_of_mem_runs : ∀ r ∈ Case.runs, r.first < 128 →
    0 < r.first ∧ 0 < r.first + r.shift ∧ r.last + r.shift < 128 := by
  decide +kernel

theorem zero_mem_lowerChar {c : Char} (h : c.toNat < 128) : '\x00' ∈ lowerChar c ↔ '\x00' = c := by
  have hdotted : c ≠ '\u0130' := by
    rintro rfl
    exact absurd h (by decide)
  rw [lowerChar, if_neg hdotted]
  cases hrun : caseRun? c.toNat with
  | none => exact List.mem_singleton
  | some r =>
      have hin := List.find?_some hrun
      simp only [Bool.and_eq_true, decide_eq_true_eq] at hin
      obtain ⟨hfirst, hlow, hhigh⟩ :=
        small_of_mem_runs r (List.mem_of_find?_eq_some hrun) (by omega)
      refine iff_of_false (fun hmem => ?_) fun hc => ?_
      · have hzero := (ofNat_eq_zero_iff _ (by omega)).1 (List.mem_singleton.1 hmem).symm
        omega
      · have hzero : c.toNat = 0 := congrArg Char.toNat hc.symm
        omega

theorem zero_mem_lowerAfter {t : Text} (h : ∀ c ∈ t, c.toNat < 128) (inWord : Bool) :
    '\x00' ∈ lowerAfter inWord t ↔ '\x00' ∈ t := by
  induction t generalizing inWord with
  | nil => rfl
  | cons c t ih =>
      obtain ⟨hc, ht⟩ := List.forall_mem_cons.1 h
      have hsigma : c ≠ 'Σ' := by
        rintro rfl
        exact absurd hc (by decide)
      simp only [lowerAfter, if_neg hsigma, List.mem_append, List.mem_cons, zero_mem_lowerChar hc,
        ih ht]

end Text

namespace Encoding

/-! ## Names in ASCII -/

theorem ascii_decode?_eq_some_iff {bytes : List UInt8} {t : Text} :
    ascii.decode? ⟨bytes.toArray⟩ = some t ↔
      (∀ b ∈ bytes, b < 0x80) ∧ t = bytes.map fun b => Char.ofNat b.toNat := by
  have hbyte (b : UInt8) : b.toNat < 128 ↔ b < 0x80 := (UInt8.lt_iff_toNat_lt (b := 0x80)).symm
  simp only [decode?, decodeBytes]
  induction bytes generalizing t with
  | nil => simp [eq_comm]
  | cons b bytes ih =>
      simp only [List.mapM_cons, Option.bind_eq_bind, Option.bind_eq_some_iff, ih]
      by_cases hb : b.toNat < 128
      · simp [hb, (hbyte b).1 hb]
        grind
      · simp [hb, mt (hbyte b).2 hb]

theorem zero_mem_map_ofNat {bytes : List UInt8} (h : ∀ b ∈ bytes, b < 0x80) :
    '\x00' ∈ bytes.map (fun b => Char.ofNat b.toNat) ↔ 0 ∈ bytes := by
  have hzero (b : UInt8) (hb : b ∈ bytes) : Char.ofNat b.toNat = '\x00' ↔ b = 0 := by
    rw [Text.ofNat_eq_zero_iff b.toNat (UInt8.lt_iff_toNat_lt.1 (h b hb))]
    exact UInt8.toNat_inj (b := 0)
  rw [List.mem_map]
  constructor
  · rintro ⟨b, hb, hchar⟩
    exact (hzero b hb).1 hchar ▸ hb
  · intro hmem
    exact ⟨0, hmem, rfl⟩

theorem toNat_of_mem_map_ofNat {bytes : List UInt8} (h : ∀ b ∈ bytes, b < 0x80) :
    ∀ c ∈ bytes.map (fun b => Char.ofNat b.toNat), c.toNat < 128 := by
  have hascii : ∀ n < 128, (Char.ofNat n).toNat < 128 := by decide
  intro c hc
  obtain ⟨b, hb, rfl⟩ := List.mem_map.1 hc
  exact hascii _ (UInt8.lt_iff_toNat_lt.1 (h b hb))

theorem nameText?_eq_some_iff {name : List UInt8} {t : Text} :
    nameText? name = some t ↔
      (∀ b ∈ name, b < 0x80) ∧ t = Text.lower (name.map fun b => Char.ofNat b.toNat) := by
  simp only [nameText?, Option.map_eq_some_iff, ascii_decode?_eq_some_iff]
  constructor
  · rintro ⟨t', ⟨hall, rfl⟩, rfl⟩
    exact ⟨hall, rfl⟩
  · rintro ⟨hall, rfl⟩
    exact ⟨_, ⟨hall, rfl⟩, rfl⟩

/-- The name of an encoding holds the code point zero if its bytes do. -/
theorem zero_mem_nameText?_iff {name : List UInt8} {t : Text} (h : nameText? name = some t) :
    '\x00' ∈ t ↔ 0 ∈ name := by
  obtain ⟨hall, rfl⟩ := nameText?_eq_some_iff.1 h
  exact (Text.zero_mem_lowerAfter (toNat_of_mem_map_ofNat hall) false).trans
    (zero_mem_map_ofNat hall)

/-! ## Stylesheets that name their encoding -/

section decoded

variable {ε : Type} {codecs : Codecs ε} {bytes : ByteArray}

/-- A stylesheet that names its encoding is what the encoding of that name says. -/
theorem decodeWith_of_nameText? {name : List UInt8} {t : Text}
    (hname : declaredName? bytes.data.toList = some name) (ht : nameText? name = some t) :
    decodeWith codecs bytes = if 0 ∈ name then .error .invalidName
      else (codecs t bytes).mapError (.ofCodec t) := by
  simp [decodeWith, hname, ht, zero_mem_nameText?_iff ht]

/-- What goes wrong beyond bytes that are not defined goes wrong with the name: without
one, or with one that is not in ASCII, no encoding is asked for. -/
theorem exists_nameText?_of_error {e : EncodingError ε} (h : decodeWith codecs bytes = .error e)
    (he : e ≠ .undecodable) :
    ∃ name t, declaredName? bytes.data.toList = some name ∧ nameText? name = some t := by
  unfold decodeWith at h
  cases hname : declaredName? bytes.data.toList with
  | none =>
      rw [hname] at h
      cases hplain : utf8Marked.decode? bytes with
      | none =>
          simp only [hplain, Except.error.injEq] at h
          exact absurd h.symm he
      | some t =>
          simp only [hplain] at h
          cases h
  | some name =>
      cases ht : nameText? name with
      | none =>
          simp only [hname, ht, Except.error.injEq] at h
          exact absurd h.symm he
      | some t => exact ⟨name, t, rfl, ht⟩

/-- The name of an encoding is impossible if it is a name at all, that is, in
ASCII, and holds the code point zero. -/
theorem decodeWith_eq_invalidName_iff : decodeWith codecs bytes = .error .invalidName ↔
    ∃ name, declaredName? bytes.data.toList = some name ∧ (∀ b ∈ name, b < 0x80) ∧ 0 ∈ name := by
  constructor
  · intro h
    obtain ⟨name, t, hname, ht⟩ := exists_nameText?_of_error h (by simp)
    refine ⟨name, hname, (nameText?_eq_some_iff.1 ht).1, ?_⟩
    rw [decodeWith_of_nameText? hname ht] at h
    split at h
    · next hzero => exact hzero
    · rcases hcodec : codecs t bytes with (_ | _ | _) | _ <;> rw [hcodec] at h <;> cases h
  · rintro ⟨name, hname, hall, hzero⟩
    rw [decodeWith_of_nameText? hname (nameText?_eq_some_iff.2 ⟨hall, rfl⟩), if_pos hzero]

/-- An encoding fails in a way of its own if it is asked for, which it is under a name
without the code point zero. -/
theorem decodeWith_eq_other_iff {e : ε} : decodeWith codecs bytes = .error (.other e) ↔
    ∃ name t, declaredName? bytes.data.toList = some name ∧ nameText? name = some t ∧
      0 ∉ name ∧ codecs t bytes = .error (.other e) := by
  constructor
  · intro h
    obtain ⟨name, t, hname, ht⟩ := exists_nameText?_of_error h (by simp)
    refine ⟨name, t, hname, ht, ?_⟩
    rw [decodeWith_of_nameText? hname ht] at h
    split at h
    · cases h
    · next hzero =>
        refine ⟨hzero, ?_⟩
        rcases hcodec : codecs t bytes with (_ | _ | e') | _ <;> rw [hcodec] at h <;> cases h
        rfl
  · rintro ⟨name, t, hname, ht, hzero, hcodec⟩
    rw [decodeWith_of_nameText? hname ht, if_neg hzero, hcodec]
    rfl

end decoded

end Encoding

end StyleAudit
