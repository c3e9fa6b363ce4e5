import SecretTyping.Lib.Lexical

/-! Rewrite buffers: insertions at original source locations, rendered over the original text. -/

namespace SecretTyping

/-- A position in an original source file. -/
structure SourceLocation where
  file : Text
  offset : Nat
  deriving DecidableEq

namespace Rewriter

/-- Whether an insertion goes before or after the earlier ones at its location. -/
inductive Side where
  | before
  | after
  deriving DecidableEq

/-- One insertion into a rewrite buffer. -/
structure Insertion where
  side : Side
  location : SourceLocation
  text : Text
  deriving DecidableEq

/-- The insertions of one side at one location, oldest first. -/
def insertedTexts (insertions : List Insertion) (side : Side) (location : SourceLocation) :
    List Text :=
  (insertions.filter fun i => i.side = side ∧ i.location = location).map Insertion.text

/-- Text standing before the original character, the newest insertion first. -/
def textBefore (insertions : List Insertion) (location : SourceLocation) : Text :=
  -- An insertion before a location goes in front of the earlier ones there.
  (insertedTexts insertions .before location).reverse.flatten

/-- Text standing after everything inserted before it, the oldest insertion first. -/
def textAfter (insertions : List Insertion) (location : SourceLocation) : Text :=
  -- An insertion after a location goes behind the earlier ones there.
  (insertedTexts insertions .after location).flatten

/-- All text inserted at a location, in the order it is read. -/
def textAt (insertions : List Insertion) (location : SourceLocation) : Text :=
  textBefore insertions location ++ textAfter insertions location

/-- Write out a file from one offset on, with every insertion at its original place. -/
def renderFrom (inserted : Nat → Text) (offset : Nat) : Text → Text
  | [] => inserted offset
  | c :: rest => inserted offset ++ c :: renderFrom inserted (offset + 1) rest

/-- The content written for a file with the given original text. -/
def render (insertions : List Insertion) (file original : Text) : Text :=
  renderFrom (fun offset => textAt insertions ⟨file, offset⟩) 0 original

@[simp] theorem insertedTexts_append (first second : List Insertion) (side : Side)
    (location : SourceLocation) :
    insertedTexts (first ++ second) side location =
      insertedTexts first side location ++ insertedTexts second side location := by
  simp [insertedTexts]

/-- Every inserted text stands contiguously in the written file. -/
theorem textAt_infix_renderFrom (inserted : Nat → Text) (original : Text) (start offset : Nat)
    (within : offset ≤ original.length) :
    inserted (start + offset) <:+: renderFrom inserted start original := by
  -- Either the text stands at the current character or behind it.
  induction original generalizing start offset with
  | nil =>
    have : offset = 0 := by simpa using within
    subst this
    exact List.infix_refl _
  | cons c rest ih =>
    cases offset with
    | zero => exact (List.prefix_append _ _).isInfix
    | succ offset =>
      have found := ih (start + 1) offset (by simpa using within)
      rw [show start + (offset + 1) = start + 1 + offset by omega]
      exact found.trans ((List.suffix_cons c _).trans (List.suffix_append _ _)).isInfix

/-- A written file contains what was inserted after any of its locations, in one piece. -/
theorem textAfter_infix_render (insertions : List Insertion) (file original : Text) (offset : Nat)
    (within : offset ≤ original.length) :
    textAfter insertions ⟨file, offset⟩ <:+: render insertions file original := by
  -- What is inserted after a location is the end of all that is inserted there.
  have found := textAt_infix_renderFrom (fun o => textAt insertions ⟨file, o⟩) original 0 offset
    within
  rw [Nat.zero_add] at found
  exact (List.suffix_append _ _).isInfix.trans found

/-- Two sequences of insertions make the same buffers, with the same content. -/
structure SameBuffers (first second : List Insertion) : Prop where
  /-- A file has a buffer once something was inserted into it. -/
  files : ∀ file, (∃ insertion ∈ first, insertion.location.file = file) ↔
    ∃ insertion ∈ second, insertion.location.file = file
  content : ∀ file original, render first file original = render second file original

/-- Texts that are all alike are the same in any order. -/
theorem eq_of_perm_alike {Item : Type} {first second : List Item} (item : Item)
    (perm : first.Perm second) (alike : ∀ other ∈ first, other = item) : first = second := by
  -- Both lists repeat the one item, equally often.
  have left := List.eq_replicate_of_mem alike
  have right := List.eq_replicate_of_mem fun other member =>
    alike other (perm.mem_iff.mpr member)
  rw [left, right, perm.length_eq]

/-- Insertions in another order make the same buffers when those before a location are all alike
and those after a location keep their order. -/
theorem sameBuffers_of_perm {first second : List Insertion} {keyword : Text}
    (perm : first.Perm second)
    (before : ∀ insertion ∈ first, insertion.side = .before → insertion.text = keyword)
    (after : ∀ location, insertedTexts first .after location =
      insertedTexts second .after location) : SameBuffers first second := by
  -- At every location both sides read the same texts in the same order.
  have befores : ∀ location, insertedTexts first .before location =
      insertedTexts second .before location := by
    intro location
    refine eq_of_perm_alike keyword ((perm.filter _).map _) fun text member => ?_
    obtain ⟨insertion, found, same⟩ := List.mem_map.mp member
    simp only [List.mem_filter, decide_eq_true_eq] at found
    rw [← same]
    exact before insertion found.1 found.2.1
  constructor
  · intro file
    simp only [perm.mem_iff]
  · intro file original
    simp only [render, textAt, textBefore, textAfter, befores, after]

end Rewriter

end SecretTyping
