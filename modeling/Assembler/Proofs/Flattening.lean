import Assembler.Proofs.FirstPass

/-!
# Groups and comments leave no trace

A group does what its children do one after the other, and a comment does nothing, so that the first
pass does to a program tree what it does to the list that is left when groups are opened and
comments are struck out (`constructAll_flattened`). A statement of that list that fails changes
nothing, and the walk stops there with the context that the statements before it reached.

Main statement: `Statement.constructAll_isTransparent`.
-/

namespace Assembler

namespace Statement

/-- Whether a statement is a comment. -/
def isComment : Statement → Bool
  | .comment _ => true
  | _ => false

/-- The statements of trees in order, with every group replaced by its children and without the
comments. -/
def flattened (l : List Statement) : List Statement := (allLeaves l).filter (!·.isComment)

theorem isLeaf_of_mem_flattened {l : List Statement} {s : Statement} (h : s ∈ flattened l) :
    s.IsLeaf ∧ ¬ s.isComment := by
  obtain ⟨hmem, hcomment⟩ := List.mem_filter.1 h
  exact ⟨isLeaf_of_mem_allLeaves l s hmem, by simpa using hcomment⟩

theorem construct_of_isComment {s : Statement} (h : s.isComment) : s.construct = pure [] := by
  cases s with
  | comment text => rfl
  | _ => cases h

/-- Comments can be struck out. -/
theorem constructAll_filter_isComment (l : List Statement) :
    constructAll (l.filter (!·.isComment)) = constructAll l := by
  induction l with
  | nil => rfl
  | cons s l ih =>
    rw [constructAll]
    cases hcomment : s.isComment with
    | true =>
      rw [List.filter_cons_of_neg (by simp [hcomment]), ih, construct_of_isComment hcomment]
      simp
    | false => rw [List.filter_cons_of_pos (by simp [hcomment]), constructAll, ih]

theorem constructAll_flattened (l : List Statement) :
    constructAll (flattened l) = constructAll l := by
  rw [flattened, constructAll_filter_isComment, ← constructAll_allLeaves]

/-- A leaf that fails changes nothing. -/
theorem construct_error_of_isLeaf {s : Statement} (hs : s.IsLeaf) {ctx after : Context}
    {e : AssemblyError} (h : s.construct ctx = .error e after) : after = ctx := by
  rw [construct_of_isLeaf hs] at h
  exact (constructLeaf_eq_error.1 h).2

/-- A walk over leaves that fails does so at one of them, with the context that the leaves before it
reached. -/
theorem exists_of_constructAll_error {l : List Statement} (hl : ∀ leaf ∈ l, leaf.IsLeaf)
    {ctx after : Context} {e : AssemblyError} (h : constructAll l ctx = .error e after) :
    ∃ before leaf behind items, l = before ++ leaf :: behind ∧
      constructAll before ctx = .ok items after ∧ leaf.construct after = .error e after := by
  induction l generalizing ctx with
  | nil => cases h
  | cons first l ih =>
    have hfirst := hl first List.mem_cons_self
    rw [constructAll, bind_eq_error] at h
    rcases h with h | ⟨made, mid, hmade, h⟩
    · obtain rfl := construct_error_of_isLeaf hfirst h
      exact ⟨[], first, l, [], rfl, rfl, h⟩
    · -- what is done with the items of the rest cannot fail
      rcases bind_eq_error.1 h with h | ⟨more, final, -, h⟩
      · obtain ⟨before, leaf, behind, items, rfl, hbefore, hleaf⟩ :=
          ih (fun x hx => hl x (List.mem_cons_of_mem first hx)) h
        refine ⟨first :: before, leaf, behind, made ++ items, rfl, ?_, hleaf⟩
        rw [constructAll, bind_eq_ok]
        exact ⟨made, mid, hmade, bind_eq_ok.2 ⟨items, after, hbefore, rfl⟩⟩
      · cases h

/-- The first pass comes to the same for statements and for what is left of them when every group is
replaced by its children and every comment deleted: the same items and context, or the same error
and the same context where it fails. A statement other than a group that fails leaves the context as
it was, so that a failure leaves the context that the statements before the failing one reached. -/
theorem constructAll_isTransparent (l : List Statement) (ctx : Context) :
    constructAll l ctx = constructAll (flattened l) ctx ∧
    (∀ s ∈ flattened l, s.IsLeaf ∧ ¬ s.isComment) ∧
    (∀ s : Statement, s.IsLeaf → ∀ e after, s.construct ctx = .error e after → after = ctx) ∧
    ∀ e after, constructAll l ctx = .error e after →
      ∃ before leaf behind items, flattened l = before ++ leaf :: behind ∧
        constructAll before ctx = .ok items after ∧ leaf.construct after = .error e after := by
  refine ⟨by rw [constructAll_flattened], fun s => isLeaf_of_mem_flattened,
    fun s hs e after => construct_error_of_isLeaf hs, fun e after h => ?_⟩
  rw [← constructAll_flattened] at h
  exact exists_of_constructAll_error (fun leaf hleaf => (isLeaf_of_mem_flattened hleaf).1) h

/-- A label and a byte in groups with comments, and the label once more. -/
def labelTwice : List Statement :=
  [.group [.comment "entry", .label "start" .plain, .group [.data (.bytes [0x90]), .comment "nop"]],
    .comment "again", .group [.group [.label "start" .plain]], .data (.bytes [0xc3])]

/-- A label that occurs twice, once in a group, stops the walk where the second one stands. -/
theorem constructAll_isTransparent_labelTwice :
    flattened labelTwice =
        [.label "start" .plain, .data (.bytes [0x90]), .label "start" .plain,
          .data (.bytes [0xc3])] ∧
      ∃ after before leaf behind items,
        constructAll labelTwice (.new .bit32) = .error (.duplicateSymbol "start") after ∧
        constructAll (flattened labelTwice) (.new .bit32) =
          .error (.duplicateSymbol "start") after ∧
        after.address = 1 ∧ flattened labelTwice = before ++ leaf :: behind ∧
        constructAll before (.new .bit32) = .ok items after ∧
        leaf.construct after = .error (.duplicateSymbol "start") after := by
  refine ⟨rfl, ?_⟩
  obtain ⟨after, hafter, haddress⟩ : ∃ after,
      constructAll labelTwice (.new .bit32) = .error (.duplicateSymbol "start") after ∧
        after.address = 1 := ⟨_, rfl, rfl⟩
  obtain ⟨hsame, -, -, hfails⟩ := constructAll_isTransparent labelTwice (.new .bit32)
  obtain ⟨before, leaf, behind, items, hsplit, hbefore, hleaf⟩ := hfails _ _ hafter
  exact ⟨after, before, leaf, behind, items, hafter, hsame ▸ hafter, haddress, hsplit, hbefore,
    hleaf⟩

end Statement

end Assembler
