import Packrat.Proofs.Plain.Lexeme

/-!
# Plain parsers without folds

A fold is what takes up an operand and refuses to be a right operand.  A parser without folds does
neither: it reads as a right operand what it reads anywhere, and leaves an operand where it is.  A
precedence node hides what is to its left, so the folds inside one do not count.
-/

namespace Packrat

variable {α : Type}

namespace LeftContent

variable {left : LeftContent α}

theorem isOperand_behind (kept : Bool) (h : left.isOperand = false) :
    (left.behind kept).isOperand = false := by
  cases kept with
  | true => exact h
  | false => rfl

end LeftContent

namespace Parser

mutual

/-- Whether all folds of the tree stand inside precedence nodes. -/
def foldFree : Parser α → Bool
  | .satisfy _ _ | .literal _ _ | .endOfInput _ | .call _ | .climb _ _ => true
  | .foldLeft _ _ _ _ => false
  | .except parser excluded => parser.foldFree && foldFreeAll excluded
  | .firstOf alternatives | .longestOf alternatives => foldFreeAll alternatives
  | .sequence parts _ => foldFreeAll parts
  | .repeated parser _ _ _ | .optional parser _ | .convert parser _ | .guarded _ parser
  | .nested parser | .memo _ _ parser | .clearing _ _ parser | .logged _ parser
  | .redirected _ parser => parser.foldFree

/-- Whether this is so for all the trees of a list. -/
def foldFreeAll : List (Parser α) → Bool
  | [] => true
  | parser :: parsers => parser.foldFree && foldFreeAll parsers

end

/-! ## As a right operand -/

section RightOperands

variable {left : LeftContent α}

theorem repeatMeans_congr_left {item : LeftContent α → List Char → Option (Found α)}
    (hitem : ∀ left rest, left.isOperand = false → item left rest = item .empty rest)
    (hleft : left.isOperand = false) (atMost : Option Nat) (payloads : List α) (count : Nat)
    (rest : List Char) (kept : Bool) :
    repeatMeans item atMost left payloads count rest kept =
      repeatMeans item atMost .empty payloads count rest kept := by
  induction hbytes : Text.byteLength rest using Nat.strongRecOn
    generalizing payloads count rest kept with
  | ind bytes ih =>
      subst hbytes
      have hsame : item (left.behind kept) rest = item (LeftContent.empty.behind kept) rest := by
        rw [LeftContent.behind_empty]
        exact hitem _ rest (LeftContent.isOperand_behind kept hleft)
      cases hroom : Engine.allows atMost count with
      | false => rw [repeatMeans_of_full hroom, repeatMeans_of_full hroom]
      | true =>
          cases hfound : item (LeftContent.empty.behind kept) rest with
          | none =>
              rw [repeatMeans_of_none hroom (hsame.trans hfound), repeatMeans_of_none hroom hfound]
          | some found =>
              rw [repeatMeans_of_some hroom (hsame.trans hfound), repeatMeans_of_some hroom hfound]
              split
              · rename_i hmoved
                exact ih _ hmoved _ _ _ _ rfl
              · rfl

mutual

/-- Without an operand to its left, a parser without folds finds what it finds with nothing there. -/
theorem means_congr_left : ∀ (parser : Parser α), parser.foldFree = true →
    ∀ (left : LeftContent α) (rest : List Char), left.isOperand = false →
      parser.means left rest = parser.means .empty rest
  | .satisfy _ _, _, _, _, _ | .literal _ _, _, _, _, _ | .endOfInput _, _, _, _, _ => by
      simp only [means]
  | .except parser excluded, h, left, rest, hleft => by
      simp only [foldFree, Bool.and_eq_true] at h
      simp only [means, meansFirst_congr_left excluded h.2 left rest hleft,
        means_congr_left parser h.1 left rest hleft]
  | .firstOf alternatives, h, left, rest, hleft =>
      meansFirst_congr_left alternatives h left rest hleft
  | .longestOf alternatives, h, left, rest, hleft =>
      meansLongest_congr_left alternatives h none left rest hleft
  | .sequence parts combine, h, left, rest, hleft => by
      simp only [means, meansAll_congr_left parts h left rest hleft]
  | .repeated parser atLeast atMost collect, h, left, rest, hleft => by
      simp only [means,
        repeatMeans_congr_left (means_congr_left parser h) hleft atMost [] 0 rest true]
  | .optional parser _, h, left, rest, hleft | .convert parser _, h, left, rest, hleft
  | .guarded _ parser, h, left, rest, hleft | .nested parser, h, left, rest, hleft
  | .logged _ parser, h, left, rest, hleft => by
      simp only [means, means_congr_left parser h left rest hleft]
  | .climb _ alternatives, _, left, rest, hleft => by
      simp only [means, hleft]
      rfl
  | .memo _ _ _, _, _, _, _ | .clearing _ _ _, _, _, _, _ | .call _, _, _, _, _
  | .redirected _ _, _, _, _, _ => by simp only [means]

theorem meansFirst_congr_left : ∀ (parsers : List (Parser α)), foldFreeAll parsers = true →
    ∀ (left : LeftContent α) (rest : List Char), left.isOperand = false →
      meansFirst parsers left rest = meansFirst parsers .empty rest
  | [], _, _, _, _ => rfl
  | parser :: parsers, h, left, rest, hleft => by
      simp only [foldFreeAll, Bool.and_eq_true] at h
      simp only [meansFirst, means_congr_left parser h.1 left rest hleft,
        meansFirst_congr_left parsers h.2 left rest hleft]

theorem meansLongest_congr_left : ∀ (parsers : List (Parser α)), foldFreeAll parsers = true →
    ∀ (best : Option (Found α)) (left : LeftContent α) (rest : List Char), left.isOperand = false →
      meansLongest best parsers left rest = meansLongest best parsers .empty rest
  | [], _, _, _, _, _ => rfl
  | parser :: parsers, h, best, left, rest, hleft => by
      simp only [foldFreeAll, Bool.and_eq_true] at h
      simp only [meansLongest, means_congr_left parser h.1 left rest hleft,
        fun best => meansLongest_congr_left parsers h.2 best left rest hleft]

theorem meansAll_congr_left : ∀ (parsers : List (Parser α)), foldFreeAll parsers = true →
    ∀ (left : LeftContent α) (rest : List Char), left.isOperand = false →
      meansAll parsers left rest = meansAll parsers .empty rest
  | [], _, _, _, _ => rfl
  | parser :: parsers, h, left, rest, hleft => by
      simp only [foldFreeAll, Bool.and_eq_true] at h
      simp only [meansAll, means_congr_left parser h.1 left rest hleft, LeftContent.behind_empty,
        fun kept rest => meansAll_congr_left parsers h.2 _ rest
          (LeftContent.isOperand_behind kept hleft)]

end

end RightOperands

/-! ## Behind an operand -/

section Operands

variable {value : Option α}

theorem repeatMeans_kept {item : LeftContent α → List Char → Option (Found α)}
    (hitem : ∀ rest found, item (.operand value) rest = some found → found.kept = true)
    (atMost : Option Nat) (payloads : List α) (count : Nat) (rest : List Char) :
    (repeatMeans item atMost (.operand value) payloads count rest true).2.2.2 = true := by
  induction hbytes : Text.byteLength rest using Nat.strongRecOn
    generalizing payloads count rest with
  | ind bytes ih =>
      subst hbytes
      cases hroom : Engine.allows atMost count with
      | false => rw [repeatMeans_of_full hroom]
      | true =>
          cases hfound : item ((LeftContent.operand value).behind true) rest with
          | none => rw [repeatMeans_of_none hroom hfound]
          | some found =>
              rw [repeatMeans_of_some hroom hfound, hitem rest found hfound]
              split
              · rename_i hmoved
                exact ih _ hmoved _ _ _ rfl
              · rfl

mutual

/-- A parser without folds leaves an operand to its left where it is. -/
theorem kept_of_means : ∀ (parser : Parser α), parser.foldFree = true →
    ∀ (rest : List Char) (found : Found α),
      parser.means (.operand value) rest = some found → found.kept = true
  | .satisfy accepts payload, _, rest, found, hmeans => by
      cases rest with
      | nil => simp [means] at hmeans
      | cons c rest =>
          simp only [means, Option.ite_none_right_eq_some, Option.some.injEq] at hmeans
          rw [← hmeans.2]
  | .literal _ _, _, rest, found, hmeans | .endOfInput _, _, rest, found, hmeans => by
      simp only [means, Option.ite_none_right_eq_some, Option.some.injEq] at hmeans
      rw [← hmeans.2]
  | .except parser excluded, h, rest, found, hmeans => by
      simp only [foldFree, Bool.and_eq_true] at h
      simp only [means] at hmeans
      split at hmeans
      · cases hmeans
      · exact kept_of_means parser h.1 rest found hmeans
  | .firstOf alternatives, h, rest, found, hmeans =>
      kept_of_meansFirst alternatives h rest found hmeans
  | .longestOf alternatives, h, rest, found, hmeans =>
      kept_of_meansLongest alternatives h none rest found (by simp) hmeans
  | .sequence parts combine, h, rest, found, hmeans => by
      simp only [means, Option.map_eq_some_iff] at hmeans
      obtain ⟨result, hresult, rfl⟩ := hmeans
      exact kept_of_meansAll parts h rest result hresult
  | .repeated parser atLeast atMost collect, h, rest, found, hmeans => by
      have hkept := repeatMeans_kept (kept_of_means parser h) atMost [] 0 rest
      simp only [means, Option.ite_none_left_eq_some, Option.some.injEq] at hmeans
      rw [← hmeans.2]
      exact hkept
  | .optional parser wrap, h, rest, found, hmeans => by
      simp only [means] at hmeans
      split at hmeans
      · rename_i inner hinner
        cases hmeans
        exact kept_of_means parser h rest inner hinner
      · cases hmeans
        rfl
  | .convert parser f, h, rest, found, hmeans => by
      simp only [means, Option.bind_eq_some_iff, Option.map_eq_some_iff] at hmeans
      obtain ⟨inner, hinner, payload, _, rfl⟩ := hmeans
      exact kept_of_means parser h rest inner hinner
  | .guarded _ parser, h, rest, found, hmeans | .nested parser, h, rest, found, hmeans
  | .logged _ parser, h, rest, found, hmeans => kept_of_means parser h rest found hmeans
  | .climb _ _, _, _, _, hmeans | .memo _ _ _, _, _, _, hmeans | .clearing _ _ _, _, _, _, hmeans
  | .call _, _, _, _, hmeans | .redirected _ _, _, _, _, hmeans => by
      simp [means, LeftContent.isOperand] at hmeans

theorem kept_of_meansFirst : ∀ (parsers : List (Parser α)), foldFreeAll parsers = true →
    ∀ (rest : List Char) (found : Found α),
      meansFirst parsers (.operand value) rest = some found → found.kept = true
  | [], _, _, _, hmeans => by cases hmeans
  | parser :: parsers, h, rest, found, hmeans => by
      simp only [foldFreeAll, Bool.and_eq_true] at h
      simp only [meansFirst] at hmeans
      split at hmeans
      · rename_i inner hinner
        rw [← Option.some.inj hmeans]
        exact kept_of_means parser h.1 rest inner hinner
      · exact kept_of_meansFirst parsers h.2 rest found hmeans

theorem kept_of_meansLongest : ∀ (parsers : List (Parser α)), foldFreeAll parsers = true →
    ∀ (best : Option (Found α)) (rest : List Char) (found : Found α),
      (∀ earlier, best = some earlier → earlier.kept = true) →
        meansLongest best parsers (.operand value) rest = some found → found.kept = true
  | [], _, best, _, found, hbest, hmeans => hbest found hmeans
  | parser :: parsers, h, best, rest, found, hbest, hmeans => by
      simp only [foldFreeAll, Bool.and_eq_true] at h
      simp only [meansLongest] at hmeans
      split at hmeans
      · rename_i inner hinner
        have hkept := kept_of_means parser h.1 rest inner hinner
        refine kept_of_meansLongest parsers h.2 _ rest found ?_ hmeans
        rintro earlier ⟨rfl⟩
        unfold Found.longer
        split
        · split
          · exact hbest _ rfl
          · exact hkept
        · exact hkept
      · exact kept_of_meansLongest parsers h.2 best rest found hbest hmeans

theorem kept_of_meansAll : ∀ (parsers : List (Parser α)), foldFreeAll parsers = true →
    ∀ (rest : List Char) (result : List α × List Char × Bool),
      meansAll parsers (.operand value) rest = some result → result.2.2 = true
  | [], _, _, result, hmeans => by
      cases hmeans
      rfl
  | parser :: parsers, h, rest, result, hmeans => by
      simp only [foldFreeAll, Bool.and_eq_true] at h
      simp only [meansAll, Option.bind_eq_some_iff, Option.map_eq_some_iff] at hmeans
      obtain ⟨first, hfirst, others, hothers, rfl⟩ := hmeans
      have hkept := kept_of_means parser h.1 rest first hfirst
      rw [hkept] at hothers
      rw [hkept]
      exact kept_of_meansAll parsers h.2 first.rest others hothers

end

end Operands

end Parser

end Packrat
