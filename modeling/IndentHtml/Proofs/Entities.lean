import IndentHtml.Proofs.Decoding

/-!
# Escaped texts

A text is escaped (`Html.IsEscaped`) when it has no angle bracket and no quote, and each ampersand
in it starts one of the five entities.

**Escaping loses nothing** (`Html.escape_lossless`).  Every text is escaped to an escaped text, from
which one pass over the entities reads it back.  So no two texts are escaped to one, and the escaped
texts are exactly those that escaping writes.

A text may hold entities of its own, or parts of them.  Their ampersands are written as entities
too, and no entity has a second ampersand in it, so what the pass reads at an ampersand is the one
character that was written there (`Html.entity_cases`).
-/

namespace IndentHtml

open Piece (IsValue)

namespace Html

/-! ### Entities -/

/-- What the five characters with a meaning of their own are written as. -/
def entities : List Text :=
  ["&amp;".toList, "&lt;".toList, "&gt;".toList, "&quot;".toList, "&#039;".toList]

/-- A character is written as itself, and is no ampersand then, or as an entity, which has no
ampersand but the first. -/
theorem entity_cases (c : Char) :
    (entity c = [c] ∧ c ≠ '&') ∨ ∃ body, entity c = '&' :: body ∧ '&' ∉ body ∧
      entity c ∈ entities := by
  unfold entity
  split
  · exact .inr ⟨"amp;".toList, rfl, by decide, by decide⟩
  · exact .inr ⟨"lt;".toList, rfl, by decide, by decide⟩
  · exact .inr ⟨"gt;".toList, rfl, by decide, by decide⟩
  · exact .inr ⟨"quot;".toList, rfl, by decide, by decide⟩
  · exact .inr ⟨"#039;".toList, rfl, by decide, by decide⟩
  · next hamp _ _ _ _ => exact .inl ⟨rfl, hamp⟩

theorem entity_of_isValue {c : Char} (hvalue : IsValue [c]) (hamp : c ≠ '&') : entity c = [c] := by
  obtain ⟨hlt, hgt, hquot, hapos⟩ := hvalue c List.mem_cons_self
  unfold entity
  split
  · exact absurd rfl hamp
  · exact absurd rfl hlt
  · exact absurd rfl hgt
  · exact absurd rfl hquot
  · exact absurd rfl hapos
  · rfl

theorem exists_entity_eq {e : Text} (h : e ∈ entities) : ∃ c, entity c = e := by
  simp only [entities, List.mem_cons, List.not_mem_nil, or_false] at h
  rcases h with rfl | rfl | rfl | rfl | rfl
  · exact ⟨'&', rfl⟩
  · exact ⟨'<', rfl⟩
  · exact ⟨'>', rfl⟩
  · exact ⟨'"', rfl⟩
  · exact ⟨'\'', rfl⟩

/-! ### Escaped texts -/

/-- A text without angle brackets and quotes in which each ampersand starts an entity. -/
structure IsEscaped (t : Text) : Prop where
  value : IsValue t
  ampersand (rest : Text) (h : '&' :: rest <:+ t) : ∃ e ∈ entities, e <+: '&' :: rest

theorem IsEscaped.of_suffix {t u : Text} (h : IsEscaped t) (hu : u <:+ t) : IsEscaped u where
  value c hc := h.value c (hu.subset hc)
  ampersand rest hrest := h.ampersand rest (hrest.trans hu)

/-- What starts with a character that a text does not have starts behind that text. -/
theorem suffix_of_suffix_append {c : Char} {rest t u : Text} (hc : c ∉ t)
    (h : c :: rest <:+ t ++ u) : c :: rest <:+ u := by
  induction t with
  | nil => exact h
  | cons d t ih =>
      obtain ⟨hd, ht⟩ := List.ne_and_not_mem_of_not_mem_cons hc
      rcases List.suffix_cons_iff.mp h with heq | hsuffix
      · exact absurd (List.cons.inj heq).1 hd
      · exact ih ht hsuffix

theorem isEscaped_nil : IsEscaped [] where
  value _ hc := absurd hc List.not_mem_nil
  ampersand rest h := absurd h.length_le (by simp)

/-- A written character in front of an escaped text makes an escaped text. -/
theorem IsEscaped.entity_append {t : Text} (h : IsEscaped t) (c : Char) :
    IsEscaped (entity c ++ t) where
  value d hd := (List.mem_append.mp hd).elim (isValue_entity c d) (h.value d)
  ampersand rest hrest := by
    rcases entity_cases c with ⟨hentity, hc⟩ | ⟨body, hentity, hbody, hmem⟩
    · have hnot : '&' ∉ entity c := by
        rw [hentity, List.mem_singleton]
        exact Ne.symm hc
      exact h.ampersand rest (suffix_of_suffix_append hnot hrest)
    · rw [hentity] at hrest
      rcases List.suffix_cons_iff.mp hrest with heq | hsuffix
      · exact ⟨entity c, hmem, t, by rw [heq, hentity]; rfl⟩
      · exact h.ampersand rest (suffix_of_suffix_append hbody hsuffix)

theorem isEscaped_escape (t : Text) : IsEscaped (escape t) := by
  induction t with
  | nil => exact isEscaped_nil
  | cons c t ih => exact ih.entity_append c

/-- An escaped text starts with a written character. -/
theorem IsEscaped.exists_entity {t : Text} (h : IsEscaped t) (hne : t ≠ []) :
    ∃ c rest, t = entity c ++ rest := by
  obtain ⟨c, more, rfl⟩ := List.exists_cons_of_ne_nil hne
  by_cases hc : c = '&'
  · subst hc
    obtain ⟨e, he, rest, hrest⟩ := h.ampersand more (List.suffix_refl _)
    obtain ⟨d, rfl⟩ := exists_entity_eq he
    exact ⟨d, rest, hrest.symm⟩
  · have hvalue : IsValue [c] := by
      intro d hd
      obtain rfl := List.mem_singleton.mp hd
      exact h.value d List.mem_cons_self
    exact ⟨c, more, by rw [entity_of_isValue hvalue hc]; rfl⟩

/-- An escaped text is what the text read from it is escaped to. -/
theorem IsEscaped.escape_unescape {t : Text} (h : IsEscaped t) : escape (unescape t) = t := by
  induction hlength : t.length using Nat.strongRecOn generalizing t with
  | ind n ih =>
      by_cases hne : t = []
      · subst hne
        rfl
      · obtain ⟨c, rest, rfl⟩ := h.exists_entity hne
        have hpos : 0 < (entity c).length := by
          rcases entity_cases c with ⟨hentity, -⟩ | ⟨body, hentity, -⟩ <;> simp [hentity]
        have hshorter : rest.length < n := by
          rw [← hlength, List.length_append]
          omega
        have hrest := ih rest.length hshorter (h.of_suffix (List.suffix_append _ _)) rfl
        rw [unescape_entity_append, escape_cons, hrest]

/-- **Escaping loses nothing.**  What a text is escaped to has no angle bracket and no quote, each
ampersand in it starts an entity, and reading its entities from left to right gives the text back,
also when the text holds entities itself.  No two texts are escaped to one, and every escaped text
is what some text is escaped to. -/
theorem escape_lossless :
    (∀ t, IsEscaped (escape t) ∧ unescape (escape t) = t) ∧ Function.Injective escape ∧
      ∀ u, IsEscaped u ↔ ∃ t, escape t = u := by
  refine ⟨fun t => ⟨isEscaped_escape t, unescape_escape t⟩,
    Function.LeftInverse.injective unescape_escape, fun u => ⟨fun hu => ?_, ?_⟩⟩
  · exact ⟨unescape u, hu.escape_unescape⟩
  · rintro ⟨t, rfl⟩
    exact isEscaped_escape t

/-- The text of an entity is escaped once more, and its ampersand is read back before the rest. -/
example : escape "&lt;".toList = "&amp;lt;".toList ∧
    unescape "&amp;lt;".toList = "&lt;".toList := by decide

end Html

end IndentHtml
