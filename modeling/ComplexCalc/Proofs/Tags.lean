import ComplexCalc.Edits
/-!
# Edits and the tag of a node

A node keeps the count of its items through all edits. It refuses an edit of index zero, of a span, and
of an index out of range; the one way to its tag is the index that counts all the way back from the end,
and an edit there replaces the tag by any item at all.
-/
namespace ComplexCalc

namespace Edit

/-- A node of `n` items accepts the edit. -/
def Fits (n : Nat) (e : Edit) : Prop := ∃ k : Int, e.place = .index k ∧ k ≠ 0 ∧ -n ≤ k ∧ k < n

/-- The item that the edit puts in the place of the tag of a node of `n` items. -/
def newTag? (n : Nat) (e : Edit) : Option Item :=
  match e.place with
  | .index k => if k = -n then some e.item else none
  | .span _ => none

end Edit

namespace Item

theorem assignAt_of_lt {items : List Item} {k : Int} {j : Nat} (hj : j < items.length)
    (hk : (if k < 0 then k + items.length else k) = j) (x : Item) :
    assignAt items k x = .ok (items.set j x) := by
  unfold assignAt
  dsimp only
  rw [hk, if_pos (by omega), Int.toNat_natCast]

/-- A node refuses an edit and stays as it is, or one of its items is replaced: the tag exactly if the
index counts all the way back. -/
theorem edit_node (tag : Item) (fields : List Item) (e : Edit) :
    (¬e.Fits (fields.length + 1) ∧ e.newTag? (fields.length + 1) = none ∧
      ∃ f, (node (tag :: fields)).edit e = (fault f, node (tag :: fields))) ∨
    e.Fits (fields.length + 1) ∧ ∃ fields', fields'.length = fields.length ∧
      (node (tag :: fields)).edit e =
        (.ok (), node ((e.newTag? (fields.length + 1)).getD tag :: fields')) := by
  obtain ⟨k | r, x⟩ := e
  · by_cases hfits : (k ≠ 0) ∧ -((fields.length + 1 : Nat) : Int) ≤ k ∧ k < (fields.length + 1 : Nat)
    · refine .inr ⟨⟨k, rfl, hfits⟩, ?_⟩
      obtain ⟨hzero, hlow, hhigh⟩ := hfits
      obtain ⟨j, hj, hk⟩ : ∃ j : Nat, j < fields.length + 1 ∧
          (if k < 0 then k + (fields.length + 1 : Nat) else k) = j := by
        split
        · exact ⟨(k + (fields.length + 1 : Nat)).toNat, by omega, by omega⟩
        · exact ⟨k.toNat, by omega, by omega⟩
      have hput : (node (tag :: fields)).put (.index k) x = .ok (node ((tag :: fields).set j x)) := by
        simp only [put, assign, if_neg hzero]
        rw [assignAt_of_lt (by simpa using hj) (by simpa using hk)]
        rfl
      rcases j with - | j
      · have hback : k = -((fields.length + 1 : Nat) : Int) := by split at hk <;> omega
        refine ⟨fields, rfl, ?_⟩
        simp only [edit, hput, Edit.newTag?, if_pos hback]
        rfl
      · have hback : k ≠ -((fields.length + 1 : Nat) : Int) := by split at hk <;> omega
        refine ⟨fields.set j x, List.length_set, ?_⟩
        simp only [edit, hput, Edit.newTag?, if_neg hback]
        rfl
    · refine .inl ⟨?_, ?_, ?_⟩
      · rintro ⟨j, hj, h⟩
        cases hj
        exact hfits h
      · exact if_neg fun hback => hfits ⟨by omega, by omega, by omega⟩
      · by_cases hzero : k = 0
        · exact ⟨.fixedTag, by simp [edit, put, assign, hzero, fault]⟩
        · refine ⟨.fieldRange, ?_⟩
          simp only [edit, put, assign, if_neg hzero, assignAt]
          rw [if_neg (fun h => hfits ⟨hzero, by split at h <;> simp_all <;> omega⟩)]
          rfl
  · refine .inl ⟨?_, rfl, .fixedTag, rfl⟩
    rintro ⟨j, hj, -⟩
    cases hj

/-- After any edits a node has as many items as before, the first of which is what the last edit of its
tag put there. -/
theorem edits_node (tag : Item) (fields : List Item) (es : List Edit) :
    ∃ fields', fields'.length = fields.length ∧ (node (tag :: fields)).edits es =
      node ((es.filterMap (·.newTag? (fields.length + 1))).getLast?.getD tag :: fields') := by
  induction es generalizing tag fields with
  | nil => exact ⟨fields, rfl, rfl⟩
  | cons e es ih =>
    have hrest : (node (tag :: fields)).edits (e :: es) =
        ((node (tag :: fields)).edit e).2.edits es := rfl
    rw [hrest]
    rcases edit_node tag fields e with ⟨-, hnone, f, h⟩ | ⟨-, fields₁, hlen, h⟩
    · rw [h, List.filterMap_cons_none hnone]
      exact ih tag fields
    · obtain ⟨fields', hlen', h'⟩ := ih ((e.newTag? (fields.length + 1)).getD tag) fields₁
      refine ⟨fields', hlen'.trans hlen, ?_⟩
      rw [h, h', hlen]
      rcases hnew : e.newTag? (fields.length + 1) with - | x
      · rw [List.filterMap_cons_none hnew]
        rfl
      · rw [List.filterMap_cons_some hnew, List.getLast?_cons]
        rfl

/-- A new node has one of the tags. -/
theorem node?_eq_ok {items : List Item} {t : Item} (h : node? items = .ok t) :
    ∃ tag ∈ tags, ∃ fields, items = text tag :: fields ∧ t = node (text tag :: fields) := by
  unfold node? at h
  split at h
  · rename_i tag fields
    split at h
    · rename_i hmem
      cases h
      exact ⟨tag, hmem, fields, rfl, rfl⟩
    · cases h
  · cases h

/-- A new node has a tag, and after any edits it has that tag unless an edit has gone to the index that
counts all the way back from its end: then it has what the last such edit put there. Whether an edit is
accepted depends on its place and the count of items alone, and a refused edit leaves the whole node as it
is. -/
theorem tag_after_edits {items : List Item} {t : Item} (h : node? items = .ok t) :
    ∃ tag ∈ tags, t.tag? = .ok (text tag) ∧ ∀ es,
      (t.edits es).tag? =
        .ok ((es.filterMap (·.newTag? items.length)).getLast?.getD (text tag)) ∧
      ∀ e, (((t.edits es).edit e).1 = .ok () ↔ e.Fits items.length) ∧
        (¬e.Fits items.length → ((t.edits es).edit e).2 = t.edits es) := by
  obtain ⟨tag, hmem, fields, rfl, rfl⟩ := node?_eq_ok h
  refine ⟨tag, hmem, rfl, fun es => ?_⟩
  obtain ⟨fields', hlen, hes⟩ := edits_node (text tag) fields es
  rw [hes, List.length_cons]
  refine ⟨rfl, fun e => ?_⟩
  rw [← hlen]
  rcases edit_node _ fields' e with ⟨hfits, -, f, he⟩ | ⟨hfits, _, -, he⟩ <;> rw [he]
  · exact ⟨⟨fun h => (by cases h), fun h => absurd h hfits⟩, fun _ => rfl⟩
  · exact ⟨⟨fun _ => hfits, fun _ => rfl⟩, fun h => absurd hfits h⟩

theorem negation_after_edits :
    node? [text "NEG", node [text "NAME", text "x"]] =
      .ok (node [text "NEG", node [text "NAME", text "x"]]) ∧
    ∃ tag ∈ tags, (node [text "NEG", node [text "NAME", text "x"]]).tag? = .ok (text tag) ∧
      ((node [text "NEG", node [text "NAME", text "x"]]).edits
        [⟨.index 0, text "ABS"⟩, ⟨.index (-1), text "y"⟩, ⟨.index 2, text "z"⟩,
          ⟨.span ⟨none, some (-1), none⟩, text "F"⟩]).tag? = .ok (text tag) := by
  have hnode : node? [text "NEG", node [text "NAME", text "x"]] =
      .ok (node [text "NEG", node [text "NAME", text "x"]]) := by simp [node?, tags]
  obtain ⟨tag, hmem, htag, hedits⟩ := tag_after_edits hnode
  exact ⟨hnode, tag, hmem, htag, (hedits _).1⟩

/-- An assignment to the last index but one of a node of two items is an assignment to its tag, which may
then be any text. -/
theorem assignment_from_end_changes_tag :
    ∃ t, node? [text "NEG", node [text "NAME", text "x"]] = .ok t ∧ t.tag? = .ok (text "NEG") ∧
      (t.edit ⟨.index (-2), text "FOO"⟩).1 = .ok () ∧
      (t.edit ⟨.index (-2), text "FOO"⟩).2.tag? = .ok (text "FOO") ∧ "FOO" ∉ tags :=
  ⟨node [text "NEG", node [text "NAME", text "x"]], by simp [node?, tags], rfl, rfl, rfl, by decide⟩

end Item
end ComplexCalc
