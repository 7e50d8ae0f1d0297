import ImApp.Media.Content

/-!
The walk through message content with a replacement that acts on a state, such as
one that downloads. The walk hands over one URL after the other and stops at the
first that fails; what was done up to there stays done.
-/

namespace ImApp.Media

open JsonText (Text Json decode encode)
open UnicodeText (trimSpace utf8Length)

/-- The count of a walk and the state of its replacement. -/
structure Progress (σ : Type) where
  count : Nat
  state : σ

def walkAllWith {α β σ : Type} (step : α → Progress σ → Progress σ × Option β) :
    List α → Progress σ → Progress σ × Option (List β)
  | [], progress => (progress, some [])
  | item :: items, progress => match step item progress with
    | (progress, none) => (progress, none)
    | (progress, some out) => let (progress, outs) := walkAllWith step items progress
      (progress, outs.map (out :: ·))

def walkWith {σ : Type} (mode : Mode) (replace : σ → Text → σ × Option Text) :
    Nat → Bool → Bool → Json → Progress σ → Progress σ × Option Json
  | 0, _, _, _, progress => (progress, none)
  | levels + 1, isURL, parseJSON, value, progress =>
    if progress.count > maxCount then (progress, none) else match value with
      | .string text => if isURL && remoteURL (trimSpace text) then
          if progress.count + 1 > maxCount then (progress, none) else
            let (state, out) := replace progress.state (trimSpace text)
            ({ count := progress.count + 1, state }, out.map .string)
        else if parseJSON && opensJSON (trimSpace text) then
          match decode (trimSpace text) with
          | some nested =>
            let (progress, out) := walkWith mode replace levels isURL parseJSON nested progress
            (progress, out.map (fun out => .string (encode out)))
          | none => (progress, if mode.rawContentURL then none else some (.string text))
        else (progress, some (.string text))
      | .object fields =>
        let (progress, outs) := walkAllWith (fun (field : Text × Json) progress =>
            if mode.skips fields field.1 then (progress, some field)
            else
              let (progress, out) := walkWith mode replace levels (mode.isURL field.1)
                (mode.isJSON field.1) field.2 progress
              (progress, out.map (fun out => (field.1, out))))
          fields progress
        (progress, outs.map .object)
      | .array items =>
        let (progress, outs) :=
          walkAllWith (walkWith mode replace levels isURL parseJSON) items progress
        (progress, outs.map .array)
      | other => (progress, some other)

/-- The rewritten content with the count, and the state that the walk leaves. -/
def rewriteWith {σ : Type} (mode : Mode) (replace : σ → Text → σ × Option Text) (content : Text)
    (state : σ) : σ × Option (Text × Nat) :=
  if utf8Length content > maxContentBytes then (state, none)
  else
    let (progress, out) := walkWith mode replace maxLevels mode.rawContentURL true
      (.string content) { count := 0, state }
    (progress.state, do
      let rewritten ← textOf (← out)
      if utf8Length rewritten > maxContentBytes then none
      return (rewritten, progress.count))

section Effects

variable {α β σ : Type} {P Q : σ → Prop}

/-- `P` of the state after a success, `Q` of it after a failure. -/
def Leaves (P Q : σ → Prop) (state : σ) : Option α → Prop
  | some _ => P state
  | none => Q state

theorem Leaves.map {state : σ} {out : Option α} (h : Leaves P Q state out) (f : α → β) :
    Leaves P Q state (out.map f) := by
  cases out with
  | none | some a => exact h

theorem Leaves.of_pre (hPQ : ∀ s, P s → Q s) {state : σ} (h : P state) (out : Option α) :
    Leaves P Q state out := by
  cases out with
  | none => exact hPQ state h
  | some a => exact h

theorem walkAllWith_leaves {step : α → Progress σ → Progress σ × Option β}
    (hstep : ∀ item progress, P progress.state →
      Leaves P Q (step item progress).1.state (step item progress).2)
    (items : List α) (progress : Progress σ) (h : P progress.state) :
    Leaves P Q (walkAllWith step items progress).1.state (walkAllWith step items progress).2 := by
  induction items generalizing progress with
  | nil => exact h
  | cons item items ih =>
    have hitem := hstep item progress h
    rw [walkAllWith]
    split
    case h_1 next heq =>
      rw [heq] at hitem
      exact hitem
    case h_2 next out heq =>
      rw [heq] at hitem
      exact (ih next hitem).map (out :: ·)

theorem walkWith_leaves {mode : Mode} {replace : σ → Text → σ × Option Text} (hPQ : ∀ s, P s → Q s)
    (hreplace : ∀ s text, P s → Leaves P Q (replace s text).1 (replace s text).2)
    (levels : Nat) (isURL parseJSON : Bool) (value : Json) (progress : Progress σ)
    (h : P progress.state) :
    Leaves P Q (walkWith mode replace levels isURL parseJSON value progress).1.state
      (walkWith mode replace levels isURL parseJSON value progress).2 := by
  induction levels generalizing isURL parseJSON value progress with
  | zero => exact hPQ _ h
  | succ levels ih =>
    rw [walkWith.eq_def]
    dsimp only
    split
    · exact hPQ _ h
    split
    case h_1 text =>
      split
      · split
        · exact hPQ _ h
        exact (hreplace progress.state (trimSpace text) h).map Json.string
      split
      · split
        case h_1 nested _ => exact (ih isURL parseJSON nested progress h).map _
        case h_2 => exact Leaves.of_pre hPQ h _
      exact h
    case h_2 fields =>
      apply Leaves.map
      apply walkAllWith_leaves _ fields progress h
      intro field next hnext
      split
      · exact hnext
      exact (ih _ _ field.2 next hnext).map _
    case h_3 items =>
      apply Leaves.map
      exact walkAllWith_leaves (ih isURL parseJSON) items progress h
    case h_4 => exact h

theorem rewriteWith_leaves (mode : Mode) {replace : σ → Text → σ × Option Text}
    (hPQ : ∀ s, P s → Q s)
    (hreplace : ∀ s text, P s → Leaves P Q (replace s text).1 (replace s text).2)
    (content : Text) (state : σ) (h : P state) : Q (rewriteWith mode replace content state).1 ∧
      ((rewriteWith mode replace content state).2.isSome →
        P (rewriteWith mode replace content state).1) := by
  rw [rewriteWith]
  split
  · exact ⟨hPQ _ h, by simp⟩
  have hwalk : Leaves P Q (walkWith mode replace maxLevels mode.rawContentURL true (.string content)
        { count := 0, state }).1.state
      (walkWith mode replace maxLevels mode.rawContentURL true (.string content)
        { count := 0, state }).2 := walkWith_leaves hPQ hreplace _ _ _ _ _ h
  dsimp only
  cases hout : (walkWith mode replace maxLevels mode.rawContentURL true (.string content)
      { count := 0, state }).2 with
  | none =>
    rw [hout] at hwalk
    exact ⟨hwalk, by simp⟩
  | some out =>
    rw [hout] at hwalk
    exact ⟨hPQ _ hwalk, fun _ => hwalk⟩

end Effects

end ImApp.Media
