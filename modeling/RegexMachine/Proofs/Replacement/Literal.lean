import RegexMachine.Regex.Replace

/-!
# Templates without references

Literal text that stands together becomes one rule. So a template in which nothing refers to the match
has at most one rule, and expands to the same text for every match.
-/

namespace RegexMachine

namespace Template

theorem Scope.isLiteral_of_reference {scope : Scope} {cs rest : List Char} {r : Rule}
    (h : scope.reference cs = some (r, rest)) : r.isLiteral = false := by
  have hgroup : ∀ found : Option (Nat × List Char),
      found.map (fun f => (Rule.group f.1, f.2)) = some (r, rest) → r.isLiteral = false := by
    intro found hfound
    obtain ⟨f, -, heq⟩ := Option.map_eq_some_iff.1 hfound
    cases heq
    rfl
  rw [reference.eq_def] at h
  split at h
  · exact hgroup _ h
  iterate 5
    · cases h
      rfl
  · exact hgroup _ h

theorem Scope.isLiteral_of_mem_pieces {scope : Scope} {r : Rule} {fuel : Nat} {cs : List Char}
    (h : Piece.rule r ∈ scope.pieces fuel cs) : r.isLiteral = false := by
  fun_induction Scope.pieces scope fuel cs with
  | case1 | case2 => exact absurd h List.not_mem_nil
  | case3 _ _ ih => exact ih ((List.mem_cons.1 h).resolve_left Piece.noConfusion)
  | case4 _ _ _ _ _ hreference ih =>
    rcases List.mem_cons.1 h with hr | h
    · cases hr
      exact isLiteral_of_reference hreference
    · exact ih h
  | case5 _ _ _ _ ih => exact ih ((List.mem_cons.1 h).resolve_left Piece.noConfusion)
  | case6 _ _ _ _ _ ih => exact ih ((List.mem_cons.1 h).resolve_left Piece.noConfusion)

/-- No rule was made, or one that refers to the match. -/
def Draft.Unmixed (d : Draft) : Prop :=
  d.rules = #[] ∨ ∃ r ∈ d.rules, r.isLiteral = false

theorem Draft.Unmixed.add {d : Draft} (h : d.Unmixed) {piece : Piece}
    (hpiece : ∀ r, piece = .rule r → r.isLiteral = false) : (d.add piece).Unmixed := by
  cases piece with
  | char c => exact h
  | rule r => exact .inr ⟨r, Array.mem_push_self, hpiece r rfl⟩

theorem Draft.Unmixed.foldl {pieces : List Piece}
    (hpieces : ∀ r, Piece.rule r ∈ pieces → r.isLiteral = false) :
    ∀ {d : Draft}, d.Unmixed → (pieces.foldl Draft.add d).Unmixed := by
  induction pieces with
  | nil => exact fun h => h
  | cons piece rest ih =>
    intro d h
    refine ih (fun r hr => hpieces r (List.mem_cons_of_mem _ hr)) (h.add fun r hr => ?_)
    exact hpieces r (hr ▸ List.mem_cons_self)

theorem Draft.Unmixed.flush {d : Draft} (h : d.Unmixed) :
    (d.flush.rules.toList = [] ∨ ∃ index, d.flush.rules.toList = [.literal index]) ∨
      ∃ r ∈ d.flush.rules.toList, r.isLiteral = false := by
  rw [Draft.flush]
  split
  · rcases h with h | ⟨r, hr, hliteral⟩
    · exact .inl (.inl (by rw [h]))
    · exact .inr ⟨r, hr.val, hliteral⟩
  · rcases h with h | ⟨r, hr, hliteral⟩
    · exact .inl (.inr ⟨d.literals.size, by rw [h]; rfl⟩)
    · exact .inr ⟨r, (Array.mem_push_of_mem _ hr).val, hliteral⟩

section

variable {pattern : String} {groupCount : Nat} {names : GroupNames}

/-- A template without references has no rule but one of literal text. -/
theorem rules_of_no_references (h : (parse pattern groupCount names).hasReferences = false) :
    (parse pattern groupCount names).rules = [] ∨
      ∃ index, (parse pattern groupCount names).rules = [.literal index] := by
  have hstart : Draft.Unmixed {} := .inl rfl
  let scope : Scope := { groupCount, names }
  have hpieces : ∀ r, Piece.rule r ∈ scope.pieces pattern.toList.length pattern.toList →
      r.isLiteral = false := fun _ => Scope.isLiteral_of_mem_pieces
  have hdraft := hstart.foldl hpieces
  rcases hdraft.flush with hplain | ⟨r, hr, hliteral⟩
  · exact hplain
  · have hrefers : (parse pattern groupCount names).hasReferences = true :=
      List.any_eq_true.2 ⟨r, hr, by rw [hliteral]; rfl⟩
    rw [h] at hrefers
    cases hrefers

/-- A template without references expands to its literal text. -/
theorem expand_of_no_references (h : (parse pattern groupCount names).hasReferences = false)
    (m : Match) : (parse pattern groupCount names).expand m =
      .ok (Regex.literalText (parse pattern groupCount names)) := by
  rw [expand, segments, Regex.literalText]
  rcases rules_of_no_references h with hrules | ⟨index, hrules⟩
  · rw [hrules]
    rfl
  · rw [hrules]
    change Except.ok (String.join [(parse pattern groupCount names).literal index]) =
      .ok ((parse pattern groupCount names).literal index)
    rw [String.join_cons, String.join_nil, String.append_empty]

end

end Template

end RegexMachine
