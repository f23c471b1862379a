import Packrat.Proofs.Reader.Firm
import Packrat.Proofs.Reader.Levels

/-!
# Firm levels of a table

Levels with operators are firm if their operands are, no operator of a level begins like another
one, and none begins with what goes on with an operand.  Tokens with white space around them, and
readers between brackets, are where firm readers begin.
-/

namespace Packrat.Reader

open Text (byteLength)

variable {β γ : Type} {limit : Nat} {goesOn goesOn' heads : Char → Bool}

/-! ## Tokens and brackets -/

/-- A token takes a first character of one kind, and is read again in front of anything else that a
character of another kind does not begin. -/
def Token (heads goesOn : Char → Bool) (reader : Reader β) : Prop :=
  ∀ rest x shorter, reader rest = some (x, shorter) →
    ∃ c cs, rest = c :: (cs ++ shorter) ∧ heads c = true ∧
      ∀ other, Unlike goesOn other → reader (c :: (cs ++ other)) = some (x, other)

/-- A run of characters of a kind, at least one. -/
theorem exists_run {accepts : Char → Bool} {rest : List Char} (h : rest.takeWhile accepts ≠ []) :
    ∃ c cs, rest.takeWhile accepts = c :: cs ∧ rest = c :: (cs ++ rest.dropWhile accepts) ∧
      ∀ d ∈ c :: cs, accepts d = true := by
  obtain ⟨c, cs, hcs⟩ := List.exists_cons_of_ne_nil h
  refine ⟨c, cs, hcs, ?_, ?_⟩
  · rw [← List.cons_append, ← hcs]
    exact List.takeWhile_append_dropWhile.symm
  · rw [← hcs]
    exact List.all_eq_true.mp List.all_takeWhile

section Tokens

variable {reader : Reader β}

theorem Token.heads_padded (h : Token heads goesOn reader) : Heads heads (padded reader) := by
  intro rest x shorter hread
  obtain ⟨⟨y, inner⟩, hinner, -⟩ := Option.map_eq_some_iff.mp hread
  obtain ⟨c, cs, hskip, hc, -⟩ := h _ _ _ hinner
  exact ⟨c, _, hskip, hc⟩

/-- White space does not go on with a token, so that it may stand behind it. -/
theorem Token.firm_padded (h : Token heads goesOn reader)
    (hblank : ∀ c, Text.isBlank c = true → goesOn c = false) :
    Firm limit goesOn (padded reader) := by
  intro rest _ x shorter hread
  obtain ⟨⟨y, inner⟩, hinner, heq⟩ := Option.map_eq_some_iff.mp hread
  cases heq
  obtain ⟨c, cs, hskip, -, hfirm⟩ := h _ _ _ hinner
  have hvisible : Text.isBlank c = false := by
    have hunlike := unlike_skipBlanks rest
    rwa [hskip, unlike_cons] at hunlike
  refine ⟨rest.takeWhile Text.isBlank ++ c :: (cs ++ inner.takeWhile Text.isBlank), ?_,
    unlike_skipBlanks inner, fun other hother hstop => ?_⟩
  · rw [List.append_assoc, List.cons_append, List.append_assoc]
    rw [← takeWhile_append_skipBlanks inner, ← hskip]
    exact takeWhile_append_skipBlanks rest
  · have hblanks : ∀ c ∈ inner.takeWhile Text.isBlank, Text.isBlank c = true :=
      List.all_eq_true.mp List.all_takeWhile
    have hstop' : Unlike goesOn (inner.takeWhile Text.isBlank ++ other) := by
      cases hspace : inner.takeWhile Text.isBlank with
      | nil => exact hstop
      | cons d ds =>
          rw [hspace] at hblanks
          exact unlike_cons.mpr (hblank d (hblanks d (List.mem_cons_self ..)))
    rw [padded, List.append_assoc, skipBlanks,
      List.dropWhile_append_of_pos (List.all_eq_true.mp List.all_takeWhile), ← skipBlanks,
      List.cons_append, skip_cons hvisible, List.append_assoc, hfirm _ hstop', Option.map_some,
      Prod.map_apply, skipBlanks, List.dropWhile_append_of_pos hblanks, ← skipBlanks,
      skip_of_unlike hother]

theorem heads_between {opening closing : String} (hopening : opening ≠ "") :
    Heads (· == front opening) (between opening closing reader) :=
  heads_behind hopening _

/-- What stands between brackets is read again in front of anything, if its reader stops where the
closing bracket stands. -/
theorem firm_between {opening closing : String} (hopening : opening ≠ "") (hclosing : closing ≠ "")
    (h : ∀ rest, byteLength rest < limit → Unlike Text.isBlank rest → FirmAt goesOn reader rest)
    (hstop : goesOn (front closing) = false) :
    Firm (limit + 1) (fun _ => false) (between opening closing reader) := by
  refine firm_behind hopening fun rest hrest hblank x shorter hread => ?_
  obtain ⟨⟨y, inner⟩, hfirst, hsecond⟩ := Option.bind_eq_some_iff.mp hread
  obtain ⟨shorter', hbehind, heq⟩ := Option.map_eq_some_iff.mp hsecond
  cases heq
  obtain ⟨text, rfl, hinner, hfirm⟩ := h rest hrest hblank _ _ hfirst
  have hbegins := begins_of_behind hclosing hbehind
  obtain ⟨text', rfl, hblank', hfirm'⟩ := behind_exists_text hclosing hbehind
  refine ⟨text ++ text', (List.append_assoc _ _ _).symm, hblank', fun other hother _ => ?_⟩
  have hclose := hfirm' other hother
  have hunlike : Unlike Text.isBlank (text' ++ other) := unlike_append hinner hother
  have hends : Unlike goesOn (text' ++ other) := by
    have hbegins' := begins_of_behind hclosing hclose
    rw [← List.append_nil (text' ++ other)] at hunlike ⊢
    refine hbegins'.unlike hunlike fun c hc => ?_
    rwa [eq_of_beq hc]
  rw [List.append_assoc, hfirm _ hunlike hends, Option.bind_some]
  dsimp only
  rw [hclose]
  rfl

end Tokens

/-! ## Alternatives with different first characters -/

section First

variable {ι : Type} {items : List ι} {heads : ι → Char → Bool} {reader : ι → Reader β}

theorem heads_first (h : ∀ item ∈ items, Heads (heads item) (reader item)) :
    Heads (fun c => items.any (heads · c)) (first (items.map reader)) := by
  induction items with
  | nil => exact fun _ _ _ hread => nomatch hread
  | cons item items ih =>
      obtain ⟨hitem, hitems⟩ := List.forall_mem_cons.mp h
      exact hitem.or (ih hitems)

theorem firm_first (h : ∀ item ∈ items, Firm limit goesOn (reader item))
    (hheads : ∀ item ∈ items, Heads (heads item) (reader item))
    (hapart : items.Pairwise fun item other => ∀ c, heads item c = true → heads other c = false) :
    Firm limit goesOn (first (items.map reader)) := by
  induction items with
  | nil => exact fun _ _ _ _ hread => nomatch hread
  | cons item items ih =>
      obtain ⟨hitem, hitems⟩ := List.forall_mem_cons.mp h
      obtain ⟨hhead, hheads⟩ := List.forall_mem_cons.mp hheads
      obtain ⟨hothers, hapart⟩ := List.pairwise_cons.mp hapart
      refine hitem.or (ih hitems hheads hapart) hhead (heads_first hheads) fun c hc => ?_
      refine List.any_eq_false.mpr fun other hother => ?_
      exact Bool.eq_false_iff.mp (hothers other hother c hc)

/-- What one of the alternatives reads, all of them read. -/
theorem first_of_mem {item : ι} {rest : List Char} {found : β × List Char}
    (hheads : ∀ item ∈ items, Heads (heads item) (reader item))
    (hapart : items.Pairwise fun item other => ∀ c, heads item c = true → heads other c = false)
    (hmem : item ∈ items) (hread : reader item rest = some found) :
    first (items.map reader) rest = some found := by
  induction items with
  | nil => cases hmem
  | cons other items ih =>
      obtain ⟨hhead, hheads⟩ := List.forall_mem_cons.mp hheads
      obtain ⟨hothers, hapart⟩ := List.pairwise_cons.mp hapart
      rw [List.map_cons, first]
      rcases List.mem_cons.mp hmem with rfl | hmem
      · rw [hread, Option.some_or]
      · have hbegins := hheads item hmem _ _ _ hread
        rw [hhead.refuses hbegins (hothers item hmem), Option.none_or, ih hheads hapart hmem]

end First

/-! ## Operators -/

/-- The character that an operator begins with. -/
def Binary.front (operator : Binary β) : Char := Reader.front operator.symbol

def Unary.front (operator : Unary β) : Char := Reader.front operator.symbol

/-- Different first characters tell readers apart. -/
theorem apart_of_nodup {ι : Type} {items : List ι} {head : ι → Char}
    (h : (items.map head).Nodup) :
    items.Pairwise fun item other => ∀ c, (c == head item) = true → (c == head other) = false := by
  refine (List.pairwise_map.mp h).imp fun hne c hc => ?_
  rw [eq_of_beq hc]
  exact beq_eq_false_iff_ne.mpr hne

/-- What a text begins with, if one of the operators is in front. -/
def fronts (operators : List (Binary β)) (c : Char) : Bool :=
  operators.any fun operator => c == operator.front

/-- What a text begins with, if one of the signs is in front. -/
def signFronts (signs : List (Unary β)) (c : Char) : Bool := signs.any fun sign => c == sign.front

section Operators

variable {operand bare : Reader β} {operators : List (Binary β)} {operator : Binary β}
  {signs : List (Unary β)}

theorem Binary.firm_after (h : Firm limit goesOn operand) (operator : Binary β) (x : β) :
    Firm (limit + 1) goesOn (operator.after operand x) :=
  firm_behind operator.nonempty fun rest hrest _ => (h rest hrest).map (operator.join x)

theorem Binary.heads_after (operator : Binary β) (operand : Reader β) (x : β) :
    Heads (· == operator.front) (operator.after operand x) :=
  heads_behind operator.nonempty _

theorem Unary.firm_before (h : Firm limit goesOn operand) (operator : Unary β) :
    Firm (limit + 1) goesOn (operator.before operand) :=
  firm_behind operator.nonempty fun rest hrest _ => (h rest hrest).map operator.apply

theorem Unary.heads_before (operator : Unary β) (operand : Reader β) :
    Heads (· == operator.front) (operator.before operand) :=
  heads_behind operator.nonempty _

/-! ### Operators between operands -/

theorem heads_joined (operators : List (Binary β)) (operand : Reader β) (x : β) :
    Heads (fronts operators) (joined operators operand x) :=
  heads_first fun operator _ => operator.heads_after operand x

theorem firm_joined (h : Firm limit goesOn operand) (hnodup : (operators.map Binary.front).Nodup)
    (x : β) : Firm (limit + 1) goesOn (joined operators operand x) :=
  firm_first (fun operator _ => operator.firm_after h x)
    (fun operator _ => operator.heads_after operand x) (apart_of_nodup hnodup)

/-- A fold goes on over the same steps, whatever stands behind the last one. -/
theorem firmAt_foldFrom {step : β → Reader β} (h : ∀ x, Firm limit goesOn (step x))
    (hheads : ∀ x, Heads heads (step x)) (hapart : ∀ c, heads c = true → goesOn c = false)
    (x : β) {rest : List Char} (hrest : byteLength rest < limit)
    (hblank : Unlike Text.isBlank rest) :
    ∃ text, rest = text ++ (foldFrom step x rest).2 ∧
      Unlike Text.isBlank (foldFrom step x rest).2 ∧ (text = [] ∨ Begins heads text) ∧
      ∀ other, Unlike Text.isBlank other → Unlike (fun c => goesOn c || heads c) other →
        foldFrom step x (text ++ other) = ((foldFrom step x rest).1, other) := by
  fun_induction foldFrom step x rest with
  | case1 x rest hnone =>
      refine ⟨[], rfl, hblank, .inl rfl, fun other hother hstop => foldFrom_of_none ?_⟩
      exact (hheads x).eq_none hother (hstop.mono fun c hc => by rw [hc, Bool.or_true])
  | case2 x rest y shorter hread hlt ih =>
      obtain ⟨text, rfl, hbegins, hshorter, hfirm⟩ := (h x rest hrest).exists_text (hheads x) hread
      obtain ⟨text', htext', hend, hbegins', hfold⟩ := ih (Nat.lt_trans hlt hrest) hshorter
      refine ⟨text ++ text', ?_, hend, .inr (hbegins.append text'), fun other hother hstop => ?_⟩
      · rw [List.append_assoc, ← htext']
      · have hunlike : Unlike Text.isBlank (text' ++ other) := by
          rw [htext'] at hshorter
          exact unlike_append hshorter hother
        have hgoesOn : Unlike goesOn (text' ++ other) :=
          unlike_behind hbegins' hunlike hapart (hstop.mono fun c hc => by rw [hc, Bool.true_or])
        rw [List.append_assoc, foldFrom_of_some (hfirm _ hunlike hgoesOn), hfold other hother hstop]
        rw [Text.byteLength_append] at hlt
        rw [Text.byteLength_append text]
        omega
  | case3 x rest y shorter hread hlt =>
      obtain ⟨text, rfl, hbegins, -⟩ := (h x rest hrest).exists_text (hheads x) hread
      refine absurd ?_ hlt
      obtain ⟨c, cs, hskip, -⟩ := hbegins
      have hle := byteLength_skipBlanks_le text
      have hpos := c.utf8Size_pos
      rw [hskip, Text.byteLength_cons] at hle
      rw [Text.byteLength_append]
      omega

/-- A level of operators, none of which goes on with an operand. -/
theorem firm_leftAssociative (h : Firm limit goesOn operand)
    (hnodup : (operators.map Binary.front).Nodup)
    (hapart : ∀ operator ∈ operators, goesOn operator.front = false)
    (hgoesOn : ∀ c, (goesOn c || fronts operators c) = true →
      goesOn' c = true) : Firm limit goesOn' (leftAssociative operators operand) := by
  intro rest hrest y shorter hread
  obtain ⟨⟨x, inner⟩, hfirst, heq⟩ := Option.map_eq_some_iff.mp hread
  obtain ⟨text, rfl, hblank, hfirm⟩ := h rest hrest _ _ hfirst
  rw [Text.byteLength_append] at hrest
  have hfronts : ∀ c, fronts operators c = true → goesOn c = false := by
    intro c hc
    obtain ⟨operator, hmem, heq⟩ := List.any_eq_true.mp hc
    rw [eq_of_beq heq]
    exact hapart operator hmem
  have hinside : byteLength inner < limit := by omega
  obtain ⟨text', htext', hend, hbegins, hfold⟩ :=
    firmAt_foldFrom (fun x => (firm_joined h hnodup x).wider (Nat.le_succ limit))
      (heads_joined operators operand) hfronts x hinside hblank
  dsimp only at heq
  rw [heq] at htext' hend hfold
  refine ⟨text ++ text', by rw [List.append_assoc, ← htext'], hend, fun other hother hstop => ?_⟩
  have hstop' := hstop.mono hgoesOn
  have hunlike : Unlike Text.isBlank (text' ++ other) := by
    rw [htext'] at hblank
    exact unlike_append hblank hother
  have hgoes : Unlike goesOn (text' ++ other) :=
    unlike_behind hbegins hunlike hfronts (hstop'.mono fun c hc => by rw [hc, Bool.true_or])
  rw [leftAssociative, List.append_assoc, hfirm _ hunlike hgoes, Option.map_some]
  exact congrArg some (hfold other hother hstop')

/-! ### Operators in front of operands -/

theorem signed_eq_or (signs : List (Unary β)) (operand bare : Reader β) :
    signed signs operand bare = fun rest =>
      (first (signs.map (·.before operand)) rest).or (bare rest) := by
  funext rest
  rw [signed, first_append, first_singleton]

theorem heads_signed (hbare : Heads heads bare) :
    Heads (fun c => signFronts signs c || heads c)
      (signed signs operand bare) := by
  rw [signed_eq_or]
  exact (heads_first fun sign _ => sign.heads_before operand).or hbare

theorem firm_signed {limit' : Nat} (h : Firm limit goesOn operand)
    (hbare : Firm limit' goesOn bare) (hle : limit' ≤ limit + 1) (hheads : Heads heads bare)
    (hnodup : (signs.map Unary.front).Nodup) (hapart : ∀ sign ∈ signs, heads sign.front = false) :
    Firm limit' goesOn (signed signs operand bare) := by
  rw [signed_eq_or]
  refine Firm.or ?_ hbare (heads_first fun sign _ => sign.heads_before operand) hheads ?_
  · exact firm_first (fun sign _ => (sign.firm_before h).wider hle)
      (fun sign _ => sign.heads_before operand) (apart_of_nodup hnodup)
  · intro c hc
    obtain ⟨sign, hmem, heq⟩ := List.any_eq_true.mp hc
    rw [eq_of_beq heq]
    exact hapart sign hmem

theorem prefixed_eq_signed (signs : List (Unary β)) (operand : Reader β) :
    prefixed signs operand = signed signs (prefixed signs operand) operand :=
  funext fun _ => prefixed_eq

theorem heads_prefixed (h : Heads heads operand) :
    Heads (fun c => signFronts signs c || heads c) (prefixed signs operand) := by
  rw [prefixed_eq_signed]
  exact heads_signed h

/-- Any number of signs, none of which an operand begins with. -/
theorem firm_prefixed (h : Firm limit goesOn operand) (hheads : Heads heads operand)
    (hnodup : (signs.map Unary.front).Nodup) (hapart : ∀ sign ∈ signs, heads sign.front = false) :
    Firm limit goesOn (prefixed signs operand) := by
  induction limit with
  | zero => exact firm_zero _ _
  | succ limit ih =>
      rw [prefixed_eq_signed]
      exact firm_signed (ih (h.wider (Nat.le_succ limit))) h (Nat.le_refl _) hheads hnodup hapart

/-! ### One operator, from the right -/

theorem heads_rightAssociative (hshrinks : Shrinks operand) (h : Heads heads operand) :
    Heads heads (rightAssociative operator signs operand) := by
  have heq : rightAssociative operator signs operand = fun rest => _ :=
    funext fun _ => rightAssociative_eq hshrinks
  rw [heq]
  exact h.map _

/-- An operator that does not go on with its operands, with signs behind it that no operand begins
with. -/
theorem firm_rightAssociative (hshrinks : Shrinks operand) (h : Firm limit goesOn operand)
    (hheads : Heads heads operand) (hnodup : (signs.map Unary.front).Nodup)
    (hsigns : ∀ sign ∈ signs, heads sign.front = false) (hapart : goesOn operator.front = false)
    (hgoesOn : ∀ c, (goesOn c || c == operator.front) = true → goesOn' c = true) :
    Firm limit goesOn' (rightAssociative operator signs operand) := by
  have heq : rightAssociative operator signs operand = _ :=
    funext fun _ => rightAssociative_eq hshrinks
  induction limit with
  | zero => exact firm_zero _ _
  | succ limit ih =>
      have hpower := ih (h.wider (Nat.le_succ limit))
      have hsigned := firm_signed hpower hpower (Nat.le_succ limit)
        (heads_rightAssociative hshrinks hheads) hnodup hsigns
      rw [heq]
      refine h.extended (fun x => operator.firm_after hsigned x)
        (fun x => operator.heads_after _ x) ?_ hgoesOn
      intro c hc
      rwa [eq_of_beq hc]

end Operators

/-! ## Repetition -/

/-- A repetition is a fold that gathers what is read. -/
theorem foldFrom_eq_many {reader : Reader β} (xs : List β) (rest : List Char) :
    foldFrom (fun ys => Reader.map (fun y => ys ++ [y]) reader) xs rest =
      Prod.map (xs ++ ·) id (many reader rest) := by
  fun_induction many reader rest generalizing xs with
  | case1 rest hnone =>
      rw [foldFrom_of_none (by rw [Reader.map, hnone]; rfl)]
      simp
  | case2 rest y shorter hread hlt ih =>
      rw [foldFrom_of_some (by rw [Reader.map, hread]; rfl) hlt, ih, Prod.map_map,
        Function.id_comp]
      simp [Function.comp_def]
  | case3 rest y shorter hread hlt =>
      rw [foldFrom, Reader.map, hread]
      simp [hlt]

theorem firmAt_many {reader : Reader β} (h : Firm limit goesOn reader) (hheads : Heads heads reader)
    (hapart : ∀ c, heads c = true → goesOn c = false) {rest : List Char}
    (hrest : byteLength rest < limit) (hblank : Unlike Text.isBlank rest) :
    ∃ text, rest = text ++ (many reader rest).2 ∧ Unlike Text.isBlank (many reader rest).2 ∧
      (text = [] ∨ Begins heads text) ∧
      ∀ other, Unlike Text.isBlank other → Unlike (fun c => goesOn c || heads c) other →
        many reader (text ++ other) = ((many reader rest).1, other) := by
  have hmany : ∀ rest, foldFrom (fun ys => Reader.map (fun y => ys ++ [y]) reader) [] rest =
      many reader rest := fun rest => foldFrom_eq_many [] rest
  obtain ⟨text, htext⟩ := firmAt_foldFrom (fun ys => h.map fun y => ys ++ [y])
    (fun ys => hheads.map _) hapart [] hrest hblank
  simp only [hmany] at htext
  exact ⟨text, htext⟩

end Packrat.Reader
