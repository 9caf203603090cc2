namespace PhraseGrammar

section Answers

variable {α σ : Type} (ask : String → σ → α × σ)

-- Asks for each name in order, and collects the answers.
def answers : List String → σ → List α × σ
  | [], state => ([], state)
  | name :: rest, state =>
      let (answer, state) := ask name state
      let (more, state) := answers rest state
      (answer :: more, state)

@[simp] theorem answers_append (left right : List String) (state : σ) :
    answers ask (left ++ right) state =
      ((answers ask left state).1 ++ (answers ask right (answers ask left state).2).1,
        (answers ask right (answers ask left state).2).2) := by
  induction left generalizing state with
  | nil => rfl
  | cons name rest ih => simp only [List.cons_append, answers, ih]

-- What every question keeps is kept by all of them.
theorem answers_keep (keeps : σ → Prop)
    (hask : ∀ name state, keeps state → keeps (ask name state).2) (names : List String)
    (state : σ) (h : keeps state) : keeps (answers ask names state).2 := by
  induction names generalizing state with
  | nil => exact h
  | cons name rest ih => exact ih _ (hask name state h)

end Answers

-- Answers from a list that has been collected before.
def nextAnswer {α : Type} (_name : String) : List (Option α) → Option α × List (Option α)
  | [] => (none, [])
  | answer :: rest => (answer, rest)

-- Answers that depend on the name alone.
def fixedAnswer {α : Type} (find : String → Option α) (name : String) (state : Unit) :
    Option α × Unit :=
  (find name, state)

theorem fixedAnswer_eq {α : Type} (find : String → Option α) (name : String) (answer : Option α)
    (h : find name = answer) : fixedAnswer find name () = (answer, ()) := by
  rw [fixedAnswer, h]

theorem answers_fixedAnswer {α : Type} (find : String → Option α) (names : List String)
    (state : Unit) : (answers (fixedAnswer find) names state).1 = names.map find := by
  induction names with
  | nil => rfl
  | cons name rest ih => simp only [answers, fixedAnswer, List.map_cons, ih]

end PhraseGrammar
