import PhraseGrammar.Proofs.Inlining.Recursion

namespace PhraseGrammar

variable {ω : Type}

namespace InliningPass

def names (pass : InliningPass ω) : List String := pass.resolved.map Prod.fst

def report (pass : InliningPass ω) (diagnostic : Diagnostic) : InliningPass ω :=
  { pass with reports := pass.reports ++ [diagnostic] }

def resolve (pass : InliningPass ω) (name : String) (rule : Rule ω) : InliningPass ω :=
  { pass with resolved := (name, rule) :: pass.resolved }

end InliningPass

namespace Grammar

-- Everything that a pass can do, without any bound on how deep it goes: it
-- resolves a list of local names below a path of names that are being resolved,
-- and gives an answer to each. The local names in a rule that is resolved are
-- resolved first, one step deeper.
inductive LocalWalk (grammar : Grammar ω) :
    List String → List String → InliningPass ω → List (Option (Rule ω)) → InliningPass ω → Prop
  | nil (path : List String) (pass : InliningPass ω) : LocalWalk grammar path [] pass [] pass
  | resolved (path : List String) (name : String) (rest : List String) (pass last : InliningPass ω)
      (given : List (Option (Rule ω))) (rule : Rule ω)
      (hname : pass.resolved.lookup name = some rule)
      (hrest : LocalWalk grammar path rest pass given last) :
      LocalWalk grammar path (name :: rest) pass (some rule :: given) last
  | missing (path : List String) (name : String) (rest : List String) (pass last : InliningPass ω)
      (given : List (Option (Rule ω))) (hname : pass.resolved.lookup name = none)
      (hrule : grammar.rule? name = none)
      (hrest : LocalWalk grammar path rest (pass.report (.missingLocal name)) given last) :
      LocalWalk grammar path (name :: rest) pass (none :: given) last
  | cycle (path : List String) (name : String) (rest : List String) (pass last : InliningPass ω)
      (given : List (Option (Rule ω))) (rule : Rule ω)
      (hname : pass.resolved.lookup name = none) (hrule : grammar.rule? name = some rule)
      (hpath : name ∈ path)
      (hrest : LocalWalk grammar path rest (pass.report (.recursiveExpansion name)) given last) :
      LocalWalk grammar path (name :: rest) pass (none :: given) last
  | visit (path : List String) (name : String) (rest : List String)
      (pass middle last : InliningPass ω) (inner given : List (Option (Rule ω))) (rule : Rule ω)
      (hname : pass.resolved.lookup name = none) (hrule : grammar.rule? name = some rule)
      (hpath : name ∉ path)
      (hinner : LocalWalk grammar (name :: path) rule.locals pass inner middle)
      (hrest : LocalWalk grammar path rest (middle.resolve name (rule.resolved inner)) given last) :
      LocalWalk grammar path (name :: rest) pass (some (rule.resolved inner) :: given) last

section Depth

variable (grammar : Grammar ω)

theorem localWalk_of_deeper (depth : Nat) (path : List String)
    (hdeeper : ∀ name rule pass, grammar.rule? name = some rule → name ∉ path →
      grammar.LocalWalk (name :: path) rule.locals pass
        (answers (grammar.resolveLocal depth (name :: path)) rule.locals pass).1
        (answers (grammar.resolveLocal depth (name :: path)) rule.locals pass).2)
    (names : List String) (pass : InliningPass ω) :
    grammar.LocalWalk path names pass
      (answers (grammar.resolveLocal (depth + 1) path) names pass).1
      (answers (grammar.resolveLocal (depth + 1) path) names pass).2 := by
  induction names generalizing pass with
  | nil => exact .nil path pass
  | cons name rest ih =>
      cases hname : pass.resolved.lookup name with
      | some rule =>
          simp only [answers, resolveLocal, hname]
          exact .resolved _ _ _ _ _ _ rule hname (ih pass)
      | none =>
          cases hrule : grammar.rule? name with
          | none =>
              simp only [answers, resolveLocal, hname, hrule]
              exact .missing _ _ _ _ _ _ hname hrule (ih _)
          | some rule =>
              by_cases hpath : name ∈ path
              · have hcontains : path.contains name = true := List.contains_iff_mem.mpr hpath
                simp only [answers, resolveLocal, hname, hrule, hcontains, if_true]
                exact .cycle _ _ _ _ _ _ rule hname hrule hpath (ih _)
              · have hcontains : path.contains name = false :=
                  Bool.eq_false_iff.mpr fun h => hpath (List.contains_iff_mem.mp h)
                simp only [answers, resolveLocal, hname, hrule, hcontains, Bool.false_eq_true,
                  if_false, rule.inlined_eq_resolved]
                exact .visit _ _ _ _ _ _ _ _ rule hname hrule hpath
                  (hdeeper name rule pass hrule hpath) (ih _)

-- With room for every name that is not on the path, the depth is never met.
theorem localWalk_answers (depth : Nat) (path : List String) (hnodup : path.Nodup)
    (hsub : path ⊆ grammar.names) (hdepth : grammar.assignments.length ≤ depth + path.length)
    (names : List String) (pass : InliningPass ω) :
    grammar.LocalWalk path names pass (answers (grammar.resolveLocal depth path) names pass).1
      (answers (grammar.resolveLocal depth path) names pass).2 := by
  induction depth generalizing path names pass with
  | zero =>
      rw [← grammar.resolveLocal_succ 0 path hnodup hsub hdepth]
      refine grammar.localWalk_of_deeper 0 path (fun name rule _ hrule hpath => ?_) names pass
      have hlt := grammar.length_path_lt path name hnodup hsub
        (grammar.mem_names_of_rule? name rule hrule) hpath
      omega
  | succ depth ih =>
      refine grammar.localWalk_of_deeper depth path (fun name rule pass hrule hpath => ?_) names
        pass
      have hassigned := grammar.mem_names_of_rule? name rule hrule
      refine ih (name :: path) (List.nodup_cons.mpr ⟨hpath, hnodup⟩)
        (List.cons_subset.mpr ⟨hassigned, hsub⟩) ?_ rule.locals pass
      simp only [List.length_cons]
      omega

-- The local names in the rules that are kept, each as often as it occurs.
def outerLocals (assignments : List (Assignment ω)) : List String :=
  (assignments.filter (!isLocal ·.name)).flatMap (·.rule.locals)

theorem inlineAssignments_snd (assignments : List (Assignment ω)) (pass : InliningPass ω) :
    (grammar.inlineAssignments assignments pass).2 =
      (answers (grammar.resolveLocal grammar.assignments.length []) (outerLocals assignments)
        pass).2 := by
  induction assignments generalizing pass with
  | nil => rfl
  | cons assignment rest ih =>
      obtain ⟨name, rule⟩ := assignment
      by_cases hlocal : isLocal name
      · simp only [inlineAssignments, hlocal, if_true, ih, outerLocals]
        rw [List.filter_cons_of_neg (by simpa using hlocal)]
      · simp only [inlineAssignments, hlocal, Bool.false_eq_true, if_false, ih, outerLocals,
          rule.inlined_eq_resolved]
        rw [List.filter_cons_of_pos (by simpa using hlocal), List.flatMap_cons, answers_append]

theorem localWalk_inlineAssignments (assignments : List (Assignment ω)) (pass : InliningPass ω) :
    ∃ given, grammar.LocalWalk [] (outerLocals assignments) pass given
      (grammar.inlineAssignments assignments pass).2 := by
  rw [inlineAssignments_snd]
  exact ⟨_, grammar.localWalk_answers _ [] List.nodup_nil (List.nil_subset _) (Nat.le_add_right _ _)
    _ _⟩

end Depth

variable {grammar : Grammar ω} {path names : List String} {pass last : InliningPass ω}
  {given : List (Option (Rule ω))} (h : grammar.LocalWalk path names pass given last)

include h

theorem LocalWalk.length_given : given.length = names.length := by
  induction h with
  | nil => rfl
  | resolved _ _ _ _ _ _ _ _ _ ih => exact congrArg (· + 1) ih
  | missing _ _ _ _ _ _ _ _ _ ih => exact congrArg (· + 1) ih
  | cycle _ _ _ _ _ _ _ _ _ _ _ ih => exact congrArg (· + 1) ih
  | visit _ _ _ _ _ _ _ _ _ _ _ _ _ _ _ ih => exact congrArg (· + 1) ih

-- No report is taken back.
theorem LocalWalk.reports_prefix : pass.reports <+: last.reports := by
  induction h with
  | nil => exact List.prefix_refl _
  | resolved _ _ _ _ _ _ _ _ _ ih => exact ih
  | missing _ _ _ _ _ _ _ _ _ ih => exact (List.prefix_append _ _).trans ih
  | cycle _ _ _ _ _ _ _ _ _ _ _ ih => exact (List.prefix_append _ _).trans ih
  | visit _ _ _ _ _ _ _ _ _ _ _ _ _ _ ihinner ihrest => exact ihinner.trans ihrest

-- A name stays resolved.
theorem LocalWalk.names_subset : pass.names ⊆ last.names := by
  induction h with
  | nil => exact List.Subset.refl _
  | resolved _ _ _ _ _ _ _ _ _ ih => exact ih
  | missing _ _ _ _ _ _ _ _ _ ih => exact ih
  | cycle _ _ _ _ _ _ _ _ _ _ _ ih => exact ih
  | visit _ _ _ _ _ _ _ _ _ _ _ _ _ _ ihinner ihrest =>
      exact fun name hname => ihrest (List.mem_cons_of_mem _ (ihinner hname))

end Grammar

end PhraseGrammar
