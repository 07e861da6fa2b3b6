import ZipMount.Archive.Members
import ZipMount.Proofs.Folding
import ZipMount.Proofs.Listing
import ZipMount.Proofs.Rose.Simulation

namespace ZipMount.MemberKey

open Members (startsIn)

variable {i j k : MemberKey}

theorem text_injective (hj : Canonical j) (hk : Canonical k) (h : j.text = k.text) : j = k := by
  rw [← ofText_text hj, h, ofText_text hk]

/-- The key above a key, read off its text. -/
theorem beforeLastSlash_text (hk : Canonical k) : beforeLastSlash k.text = (parent k).text := by
  by_cases hne : k = []
  · subst hne
    rfl
  · exact (extends_parent hk hne).text_eq.symm

theorem text_append (hj : j ≠ []) (hk : k ≠ []) : text (j ++ k) = j.text ++ "/" ++ k.text := by
  apply String.toList_inj.mp
  rw [text, text, text, List.map_append, Text.joined_append (by simpa using hj) (by simpa using hk)]
  simp

/-- What starts with the text of a key and a slash is beneath the key: the test on texts does not
take a longer name for a key beneath. -/
theorem startsIn_text (hj : Canonical j) (hk : Canonical k) (hn : k ≠ []) :
    startsIn k.text j.text = (k.isPrefixOf j && j != k) := by
  rw [Bool.eq_iff_iff, Bool.and_eq_true, List.isPrefixOf_iff_prefix, bne_iff_ne, startsIn,
    List.isPrefixOf_iff_prefix]
  constructor
  · rintro ⟨cs, hcs⟩
    have htext : j.text = k.text ++ "/" ++ String.ofList cs := by
      apply String.toList_inj.mp
      rw [← hcs]
      simp
    have hne : j ≠ [] := by
      rintro rfl
      cases h : k.text.toList with
      | nil =>
        rw [String.toList_append, h] at hcs
        cases hcs
      | cons c l =>
        rw [String.toList_append, h] at hcs
        cases hcs
    have hsegments := congrArg segments htext
    rw [segments_append_slash, segments_text hne hj, segments_text hn hk] at hsegments
    rw [hsegments]
    refine ⟨List.prefix_append _ _, fun h => ?_⟩
    have hnil := List.append_right_eq_self.mp h
    rw [segments, List.map_eq_nil_iff] at hnil
    exact Text.pieces_ne_nil _ _ hnil
  · rintro ⟨⟨r, rfl⟩, hne⟩
    have hr : r ≠ [] := by
      rintro rfl
      exact hne (List.append_nil k)
    rw [text_append hn hr]
    exact ⟨(text r).toList, by simp⟩

theorem nameLe_append (a s r : String) : nameLe (a ++ s) (a ++ r) = nameLe s r := by
  rw [nameLe, nameLe, Text.bytes_append, Text.bytes_append, decide_eq_decide]
  constructor
  · intro h
    apply List.not_lt.mp
    exact fun hlt => List.not_lt.mpr h (List.append_left_lt hlt)
  · exact List.append_left_le

/-- Keys in one directory have its text before their last names, so that whole texts are in the
order of these names. -/
theorem siblingLe_text (hi : i ≠ []) (hj : j ≠ []) (h : parent i = parent j) :
    siblingLe i j = nameLe i.text j.text := by
  rw [siblingLe, ← Tree.concat_getLastD hi, ← Tree.concat_getLastD hj, h]
  simp only [List.getLastD_concat]
  by_cases hp : parent j = []
  · rw [hp, List.nil_append, List.nil_append, text_singleton, text_singleton]
  · rw [text_concat hp, text_concat hp, nameLe_append]

end ZipMount.MemberKey
