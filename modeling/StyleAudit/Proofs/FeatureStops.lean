import StyleAudit.Proofs.OwnTokens

/-!
# Features end where tokens end

The span of a feature stops where a token does: a function at its parenthesis, or
at the last token in it if that is missing, everything else at the name. The one
exception is the name of a function in a selector, which stops before the
parenthesis that is part of the token. So what is known of the places where tokens
stop, and of those one column before, is known of the places where features stop.

A feature is made from a part of what its resolver is given, and the tokens of the
part are among those of the whole, which are among those that its node is written
with.
-/

namespace StyleAudit

open Component (tokensIn)

/-- Whether a feature stops where one of some tokens does, or the name in it. -/
def Feature.StopsIn (ts : List Token) (f : Feature) : Prop :=
  ∃ t ∈ ts, f.span.stop = t.span.stop ∨ f.span.stop = t.span.nameEnd

theorem Feature.StopsIn.mono {ts us : List Token} {f : Feature} (h : f.StopsIn ts)
    (hsub : ts ⊆ us) : f.StopsIn us := by
  obtain ⟨t, ht, hstop⟩ := h
  exact ⟨t, hsub ht, hstop⟩

namespace Component

mutual

theorem exists_stop (c : Component) : ∃ t ∈ c.tokens, c.stop = t.span.stop := by
  match c with
  | .token t =>
      rw [tokens, stop]
      exact ⟨t, List.mem_singleton_self t, rfl⟩
  | .function name head values (some closing) =>
      rw [tokens, stop]
      exact ⟨⟨.closing .round, closing⟩, by simp [Bracket.closer], rfl⟩
  | .function name head values none =>
      rw [tokens, stop]
      rcases lastStop_cases head.stop values with hstop | ⟨t, ht, hstop⟩
      · exact ⟨_, List.mem_cons_self, hstop⟩
      · exact ⟨t, List.mem_cons_of_mem _ (List.mem_append_left _ ht), hstop⟩
  | .block bracket opening values (some closing) =>
      rw [tokens, stop]
      exact ⟨⟨.closing bracket, closing⟩, by simp [Bracket.closer], rfl⟩
  | .block bracket opening values none =>
      rw [tokens, stop]
      rcases lastStop_cases opening.stop values with hstop | ⟨t, ht, hstop⟩
      · exact ⟨_, List.mem_cons_self, hstop⟩
      · exact ⟨t, List.mem_cons_of_mem _ (List.mem_append_left _ ht), hstop⟩

theorem lastStop_cases (p : Position) (cs : List Component) :
    lastStop p cs = p ∨ ∃ t ∈ tokensIn cs, lastStop p cs = t.span.stop := by
  match cs with
  | [] =>
      rw [lastStop]
      exact .inl rfl
  | c :: rest =>
      rw [lastStop, tokensIn]
      rcases lastStop_cases c.stop rest with hstop | ⟨t, ht, hstop⟩
      · obtain ⟨t, ht, hc⟩ := exists_stop c
        exact .inr ⟨t, List.mem_append_left _ ht, hstop.trans hc⟩
      · exact .inr ⟨t, List.mem_append_right _ ht, hstop⟩

end

end Component

namespace Feature

open Component (tokens_sublist leading_mem_tokens tokens_sublist_of_parts
  tokens_sublist_of_partsAll)

variable {f : Feature}

theorem stopsIn_of_function? {c : Component} (h : function? c = some f) : f.StopsIn c.tokens := by
  obtain ⟨name, head, values, closing, -, -, rfl⟩ := function?_eq_some h
  obtain ⟨t, ht, hstop⟩ := c.exists_stop
  exact ⟨t, ht, .inl hstop⟩

theorem stopsIn_of_mem_ofDeclaration {d : Declaration} (hf : f ∈ ofDeclaration d) :
    f.StopsIn (⟨.ident d.name, d.span⟩ :: tokensIn d.values) := by
  unfold ofDeclaration at hf
  split at hf
  · cases hf
  · rcases List.mem_cons.1 hf with rfl | hf
    · exact ⟨_, List.mem_cons_self, .inl rfl⟩
    · obtain ⟨c, hc, hf⟩ := List.mem_flatMap.1 hf
      refine StopsIn.mono (StopsIn.mono ?_ (tokens_sublist hc).subset) (List.subset_cons_self ..)
      rcases of_mem_ofValue hf with hkeyword | ⟨p, hp, hfunction⟩
      · obtain ⟨name, span, rfl, -, rfl⟩ := keyword?_eq_some hkeyword
        exact ⟨_, leading_mem_tokens _, .inl rfl⟩
      · exact (stopsIn_of_function? hfunction).mono (tokens_sublist_of_parts hp).subset

theorem Selects.stopsIn {c : Component} (h : Selects c f) : f.StopsIn c.tokens := by
  cases h with
  | pseudoClass start hvendor => exact ⟨_, leading_mem_tokens _, .inl rfl⟩
  | pseudoFunction start hvendor => exact ⟨_, leading_mem_tokens _, .inr rfl⟩
  | nesting => exact ⟨_, leading_mem_tokens _, .inl rfl⟩

theorem stopsIn_of_mem_selectors {cs : List Component} (hf : f ∈ selectors cs) :
    f.StopsIn (tokensIn cs) := by
  obtain ⟨p, hp, hselects⟩ := selectedIn_of_mem_selectors hf
  exact hselects.stopsIn.mono (tokens_sublist_of_partsAll hp).subset

theorem stopsIn_of_mem_ofAtRule {name : Text} {span : Span} {prelude : List Component}
    (hf : f ∈ Feature.ofAtRule name span prelude) :
    f.StopsIn (⟨.atKeyword name, span⟩ :: tokensIn prelude) := by
  rcases of_mem_ofAtRule hf with ⟨-, rfl⟩ | ⟨word, place, hmem, -, rfl⟩
  · exact ⟨_, List.mem_cons_self, .inl rfl⟩
  · have hleading := (tokens_sublist_of_partsAll hmem).subset (leading_mem_tokens _)
    exact ⟨_, List.mem_cons_of_mem _ hleading, .inl rfl⟩

end Feature

/-- The features of a node stop where tokens do that it is written with. -/
theorem Node.stopsIn_of_mem_features {n : Node} {own : List Token} {f : Feature}
    (hown : n.Own own) (hf : f ∈ n.features) : f.StopsIn own := by
  cases hown with
  | declaration hcolon =>
      rw [features_declaration] at hf
      refine (Feature.stopsIn_of_mem_ofDeclaration hf).mono (List.cons_subset_cons _ ?_)
      exact List.subset_cons_self ..
  | rule => exact (Feature.stopsIn_of_mem_selectors hf).mono (List.subset_append_left ..)
  | atRule =>
      rw [features_atRule] at hf
      refine (Feature.stopsIn_of_mem_ofAtRule hf).mono (List.cons_subset_cons _ ?_)
      exact List.subset_append_left ..
  | malformed => cases hf

/-- The features of a source stop where tokens of it do that are neither comments
nor the mark of its end, or where the names in these do. -/
theorem Stylesheet.stopsIn_of_parse {source : Text} {sheet : Stylesheet}
    (h : parse .tolerant source = .ok sheet) {o : Occurrence}
    (ho : o ∈ Node.occurrencesIn sheet.rules) : o.feature.StopsIn (body source) := by
  obtain ⟨n, hn, hf⟩ := Node.mem_within_of_mem_occurrencesIn ho
  obtain ⟨own, hown, hsub⟩ := writtenIn_of_parse h n hn
  exact (Node.stopsIn_of_mem_features hown hf).mono hsub.subset

end StyleAudit
