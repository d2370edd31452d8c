import Mathlib.Data.List.Induction
import Mathlib.Data.List.Nodup
import StyleAudit.Dictionary

/-!
# What a list of pairs leaves in a dictionary

Of the pairs with one key the last counts, but it stands where the first stood. So two
things are said of the dictionary of a list of pairs: which value a key has, by the last
pair with the key, and in which order the keys stand, by the first. Both are shown from
the back, since the last pair is the last that is put (`ofList_concat`).

No key stands twice, and so to be in the dictionary and to be found in it are the same.
-/

namespace StyleAudit

/-- What occurs last is listed if it has not occurred before. -/
theorem eraseDups_concat {α : Type} [BEq α] [LawfulBEq α] (keys : List α) (key : α) :
    (keys ++ [key]).eraseDups =
      if keys.contains key then keys.eraseDups else keys.eraseDups ++ [key] := by
  rw [List.eraseDups_append, List.cons_removeAll, List.nil_removeAll]
  by_cases h : key ∈ keys
  · simp [h]
  · simp [h, List.eraseDups_cons]

namespace Dictionary

variable {α β : Type}

/-- What it means that a value counts for a key: there is a pair of the two, and no other
pair with the key follows it. -/
def Last (pairs : List (α × β)) (key : α) (value : β) : Prop :=
  ∃ before after, pairs = before ++ (key, value) :: after ∧ key ∉ keys after

theorem Last.mem {pairs : List (α × β)} {key : α} {value : β} (h : Last pairs key value) :
    (key, value) ∈ pairs := by
  obtain ⟨before, after, rfl, -⟩ := h
  exact List.mem_append_right _ List.mem_cons_self

@[simp] theorem keys_append (c d : Dictionary α β) : keys (c ++ d) = keys c ++ keys d :=
  List.map_append

theorem mem_keys {key : α} {d : Dictionary α β} : key ∈ keys d ↔ ∃ value, (key, value) ∈ d := by
  rw [keys, List.mem_map]
  constructor
  · rintro ⟨⟨k, v⟩, hmem, rfl⟩
    exact ⟨v, hmem⟩
  · rintro ⟨value, hmem⟩
    exact ⟨_, hmem, rfl⟩

theorem last_concat {pairs : List (α × β)} {k key : α} {v value : β} :
    Last (pairs ++ [(k, v)]) key value ↔
      k = key ∧ v = value ∨ k ≠ key ∧ Last pairs key value := by
  constructor
  · rintro ⟨before, after, heq, hafter⟩
    rcases List.eq_nil_or_concat after with rfl | ⟨init, last, rfl⟩
    · have hlast := (List.append_inj' heq rfl).2
      rw [List.cons.injEq, Prod.mk.injEq] at hlast
      exact .inl hlast.1
    · rw [List.concat_eq_append, ← List.cons_append, ← List.append_assoc] at heq
      obtain ⟨rfl, hlast⟩ := List.append_inj' heq rfl
      rw [List.cons.injEq] at hlast
      rw [List.concat_eq_append, ← hlast.1, keys_append, List.mem_append, not_or] at hafter
      exact .inr ⟨fun hk => hafter.2 (List.mem_singleton.2 hk.symm), before, init, rfl, hafter.1⟩
  · rintro (⟨rfl, rfl⟩ | ⟨hk, before, after, rfl, hafter⟩)
    · exact ⟨pairs, [], rfl, List.not_mem_nil⟩
    · refine ⟨before, after ++ [(k, v)], by rw [List.append_assoc, List.cons_append], ?_⟩
      rw [keys_append, List.mem_append, not_or]
      exact ⟨hafter, fun hmem => hk (List.mem_singleton.1 hmem).symm⟩

variable [DecidableEq α]

theorem mem_of_get?_eq_some {key : α} {value : β} {d : Dictionary α β}
    (h : get? key d = some value) : (key, value) ∈ d := by
  induction d with
  | nil => cases h
  | cons p rest ih =>
      obtain ⟨k, v⟩ := p
      rw [get?] at h
      split at h
      · next hk =>
          cases h
          rw [hk]
          exact List.mem_cons_self
      · exact List.mem_cons_of_mem _ (ih h)

theorem get?_of_mem {key : α} {value : β} {d : Dictionary α β} (hd : (keys d).Nodup)
    (h : (key, value) ∈ d) : get? key d = some value := by
  induction d with
  | nil => cases h
  | cons p rest ih =>
      obtain ⟨k, v⟩ := p
      obtain ⟨hk, hrest⟩ := List.nodup_cons.1 hd
      rw [get?]
      rcases List.mem_cons.1 h with heq | hmem
      · cases heq
        rw [if_pos rfl]
      · rw [if_neg, ih hrest hmem]
        rintro rfl
        exact hk (mem_keys.2 ⟨value, hmem⟩)

theorem get?_eq_none {key : α} {d : Dictionary α β} : get? key d = none ↔ key ∉ keys d := by
  induction d with
  | nil => exact iff_of_true rfl List.not_mem_nil
  | cons p rest ih =>
      obtain ⟨k, v⟩ := p
      have hkeys : keys ((k, v) :: rest) = k :: keys rest := rfl
      rw [get?, hkeys, List.mem_cons, not_or, ← ih]
      by_cases hk : k = key
      · simp [hk]
      · simp [hk, Ne.symm hk]

theorem ofList_concat (pairs : List (α × β)) (p : α × β) :
    ofList (pairs ++ [p]) = put p.1 p.2 (ofList pairs) := by
  rw [ofList, List.foldl_append]
  rfl

theorem get?_ofList {pairs : List (α × β)} {key : α} {value : β} :
    get? key (ofList pairs) = some value ↔ Last pairs key value := by
  induction pairs using List.reverseRecOn with
  | nil =>
      refine iff_of_false (fun h => ?_) fun h => absurd h.mem List.not_mem_nil
      cases h
  | append_singleton pairs p ih =>
      obtain ⟨k, v⟩ := p
      rw [ofList_concat, get?_put, last_concat, ← ih]
      by_cases hk : key = k
      · simp [hk]
      · simp [hk, Ne.symm hk]

theorem keys_ofList [BEq α] [LawfulBEq α] (pairs : List (α × β)) :
    keys (ofList pairs) = (keys pairs).eraseDups := by
  induction pairs using List.reverseRecOn with
  | nil => rfl
  | append_singleton pairs p ih =>
      have hkeys : keys (pairs ++ [p]) = keys pairs ++ [p.1] := keys_append pairs [p]
      rw [ofList_concat, keys_put, ih, hkeys, eraseDups_concat]
      by_cases h : p.1 ∈ keys pairs <;> simp [h]

theorem nodup_keys_ofList (pairs : List (α × β)) : (keys (ofList pairs)).Nodup := by
  induction pairs using List.reverseRecOn with
  | nil => exact List.nodup_nil
  | append_singleton pairs p ih =>
      rw [ofList_concat, keys_put]
      split
      · exact ih
      · next hnew =>
          rw [← List.concat_eq_append]
          exact ih.concat hnew

theorem mem_ofList {pairs : List (α × β)} {key : α} {value : β} :
    (key, value) ∈ ofList pairs ↔ Last pairs key value := by
  rw [← get?_ofList]
  exact ⟨get?_of_mem (nodup_keys_ofList pairs), mem_of_get?_eq_some⟩

theorem put_of_not_mem {key : α} {value : β} {d : Dictionary α β} (h : key ∉ keys d) :
    put key value d = d ++ [(key, value)] := by
  induction d with
  | nil => rfl
  | cons p rest ih =>
      obtain ⟨k, v⟩ := p
      obtain ⟨hk, hrest⟩ := not_or.1 fun hmem => h (List.mem_cons.2 hmem)
      rw [put, if_neg (Ne.symm hk), ih hrest, List.cons_append]

/-- Pairs of which no two have the same key are a dictionary already. -/
theorem ofList_of_nodup {pairs : List (α × β)} (h : (keys pairs).Nodup) :
    ofList pairs = pairs := by
  induction pairs using List.reverseRecOn with
  | nil => rfl
  | append_singleton pairs p ih =>
      rw [keys_append, List.nodup_append] at h
      obtain ⟨hpairs, -, hapart⟩ := h
      have hnew : p.1 ∉ keys pairs := fun hmem => hapart _ hmem _ List.mem_cons_self rfl
      rw [ofList_concat, ih hpairs, put_of_not_mem hnew]

/-- Put under their keys one after the other, values that are a function of the key
stand in the order in which the keys first occur. -/
theorem ofList_map [BEq α] [LawfulBEq α] (f : α → β) (ks : List α) :
    ofList (ks.map fun k => (k, f k)) = ks.eraseDups.map fun k => (k, f k) := by
  have hvalue : ∀ p ∈ ofList (ks.map fun k => (k, f k)), (p.1, f p.1) = id p := by
    rintro ⟨k, v⟩ hp
    obtain ⟨k', -, heq⟩ := List.mem_map.1 (mem_ofList.1 hp).mem
    cases heq
    rfl
  have hkeys : keys (ks.map fun k => (k, f k)) = ks := by simp [keys, Function.comp_def]
  calc ofList (ks.map fun k => (k, f k))
      = (ofList (ks.map fun k => (k, f k))).map fun p => (p.1, f p.1) := by
        rw [List.map_congr_left hvalue, List.map_id]
    _ = (keys (ofList (ks.map fun k => (k, f k)))).map fun k => (k, f k) := by
        rw [keys, List.map_map]
        rfl
    _ = ks.eraseDups.map fun k => (k, f k) := by rw [keys_ofList, hkeys]

end Dictionary

end StyleAudit
