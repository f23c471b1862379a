import Packrat.Proofs.Reader.Blank

/-!
# What is read in front of other texts

A reader is firm if it reads the same text again whatever is put behind it, unless that goes on with
what was read.  Nothing goes on with a text that ends, so that a firm reader reads the same when the
text is cut where it stopped.  Firm readers are put together by what they begin with: a character
tells which of two readers comes next, so that no reader is ever stopped by what it tried in vain.
-/

namespace Packrat.Reader

open Text (byteLength)

variable {β γ : Type}

/-- Behind the white space, the text begins with a character of the given kind. -/
def Begins (heads : Char → Bool) (text : List Char) : Prop :=
  ∃ c cs, skipBlanks text = c :: cs ∧ heads c = true

/-- What is read begins with a character of the given kind. -/
def Heads (heads : Char → Bool) (reader : Reader β) : Prop :=
  ∀ rest x shorter, reader rest = some (x, shorter) → Begins heads rest

/--
The reader takes the white space behind what it reads here, and reads the same in front of anything
else that a character of the given kind does not begin.
-/
def FirmAt (goesOn : Char → Bool) (reader : Reader β) (rest : List Char) : Prop :=
  ∀ x shorter, reader rest = some (x, shorter) →
    ∃ text, rest = text ++ shorter ∧ Unlike Text.isBlank shorter ∧
      ∀ other, Unlike Text.isBlank other → Unlike goesOn other →
        reader (text ++ other) = some (x, other)

/-- The reader is firm in front of all texts of less than `limit` bytes. -/
def Firm (limit : Nat) (goesOn : Char → Bool) (reader : Reader β) : Prop :=
  ∀ rest, byteLength rest < limit → FirmAt goesOn reader rest

/-- A text that is not read up to its end is read in the same way when it is cut there. -/
def Honest (reader : Reader β) : Prop :=
  ∀ text x rest, reader text = some (x, rest) →
    ∃ before, text = before ++ rest ∧ reader before = some (x, [])

theorem first_singleton (reader : Reader β) : first [reader] = reader := by
  funext rest
  rw [first, first, Option.or_none]

/-! ## First characters -/

section Begins

variable {heads heads' : Char → Bool} {text other : List Char}

theorem Begins.append (h : Begins heads text) (other : List Char) :
    Begins heads (text ++ other) := by
  obtain ⟨c, cs, hskip, hc⟩ := h
  have hsplit : text = text.takeWhile Text.isBlank ++ c :: cs := by
    rw [← hskip]
    exact takeWhile_append_skipBlanks text
  refine ⟨c, cs ++ other, ?_, hc⟩
  rw [skipBlanks] at hskip ⊢
  rw [List.dropWhile_append, hskip]
  rfl

/-- One character begins a text. -/
theorem Begins.unique (h : Begins heads text) (h' : Begins heads' text) :
    ∃ c, heads c = true ∧ heads' c = true := by
  obtain ⟨c, cs, hskip, hc⟩ := h
  obtain ⟨d, ds, hskip', hd⟩ := h'
  rw [hskip] at hskip'
  cases hskip'
  exact ⟨c, hc, hd⟩

theorem Begins.mono (h : Begins heads text) (hheads : ∀ c, heads c = true → heads' c = true) :
    Begins heads' text := by
  obtain ⟨c, cs, hskip, hc⟩ := h
  exact ⟨c, cs, hskip, hheads c hc⟩

/-- Where no white space is in front, the text itself begins so. -/
theorem Begins.unlike (h : Begins heads text) (hblank : Unlike Text.isBlank (text ++ other))
    (hheads : ∀ c, heads c = true → heads' c = false) : Unlike heads' (text ++ other) := by
  obtain ⟨c, cs, hskip, hc⟩ := h.append other
  rw [skip_of_unlike hblank] at hskip
  rw [hskip, unlike_cons]
  exact hheads c hc

/-- What may stand in between, and begins otherwise if it does. -/
theorem unlike_behind (h : text = [] ∨ Begins heads text)
    (hblank : Unlike Text.isBlank (text ++ other))
    (hheads : ∀ c, heads c = true → heads' c = false) (hother : Unlike heads' other) :
    Unlike heads' (text ++ other) := by
  rcases h with rfl | h
  · exact hother
  · exact h.unlike hblank hheads

/-- What stands in front decides how a text begins, if anything does. -/
theorem unlike_append {accepts : Char → Bool} {shorter : List Char}
    (h : Unlike accepts (text ++ shorter)) (hother : Unlike accepts other) :
    Unlike accepts (text ++ other) := by
  cases text with
  | nil => exact hother
  | cons c text => exact unlike_cons.mpr (unlike_cons.mp h)

end Begins

section Heads

variable {heads heads' goesOn : Char → Bool} {reader reader' : Reader β} {rest : List Char}

theorem Heads.mono (h : Heads heads reader) (hheads : ∀ c, heads c = true → heads' c = true) :
    Heads heads' reader := fun _ _ _ hread => (h _ _ _ hread).mono hheads

theorem Heads.bind (h : Heads heads reader) (further : β × List Char → Option (γ × List Char)) :
    Heads heads fun rest => (reader rest).bind further := by
  intro rest x shorter hread
  obtain ⟨⟨y, inner⟩, hinner, -⟩ := Option.bind_eq_some_iff.mp hread
  exact h _ _ _ hinner

theorem Heads.map (h : Heads heads reader) (f : β × List Char → γ × List Char) :
    Heads heads fun rest => (reader rest).map f := by
  intro rest x shorter hread
  obtain ⟨⟨y, inner⟩, hinner, -⟩ := Option.map_eq_some_iff.mp hread
  exact h _ _ _ hinner

theorem Heads.or (h : Heads heads reader) (h' : Heads heads' reader') :
    Heads (fun c => heads c || heads' c) fun rest => (reader rest).or (reader' rest) := by
  intro rest x shorter hread
  rcases Option.or_eq_some_iff.mp hread with hread | ⟨-, hread⟩
  · exact (h _ _ _ hread).mono fun c hc => by rw [hc, Bool.true_or]
  · exact (h' _ _ _ hread).mono fun c hc => by rw [hc, Bool.or_true]

/-- Nothing is read of a text that begins with another character. -/
theorem Heads.refuses (h : Heads heads reader) (hbegins : Begins heads' rest)
    (hapart : ∀ c, heads c = true → heads' c = false) : reader rest = none := by
  cases hread : reader rest with
  | none => rfl
  | some found =>
      obtain ⟨c, hc', hc⟩ := hbegins.unique (h _ _ _ hread)
      rw [hapart c hc] at hc'
      cases hc'

/-- Nothing is read where no character of the kind is in front. -/
theorem Heads.eq_none (h : Heads heads reader) (hblank : Unlike Text.isBlank rest)
    (hheads : Unlike heads rest) : reader rest = none := by
  cases hread : reader rest with
  | none => rfl
  | some found =>
      obtain ⟨c, cs, hskip, hc⟩ := h _ _ _ hread
      rw [skip_of_unlike hblank] at hskip
      rw [hskip, unlike_cons, hc] at hheads
      cases hheads

/-- A firm reader begins its own text so. -/
theorem FirmAt.exists_text (h : FirmAt goesOn reader rest) (hheads : Heads heads reader) {x : β}
    {shorter : List Char} (hread : reader rest = some (x, shorter)) :
    ∃ text, rest = text ++ shorter ∧ Begins heads text ∧ Unlike Text.isBlank shorter ∧
      ∀ other, Unlike Text.isBlank other → Unlike goesOn other →
        reader (text ++ other) = some (x, other) := by
  obtain ⟨text, htext, hblank, hfirm⟩ := h _ _ hread
  refine ⟨text, htext, ?_, hblank, hfirm⟩
  have hcut := hfirm [] (unlike_nil _) (unlike_nil _)
  rw [List.append_nil] at hcut
  exact hheads _ _ _ hcut

end Heads

/-! ## Firm readers -/

section Firm

variable {limit limit' : Nat} {goesOn goesOn' heads heads' : Char → Bool}
  {reader reader' : Reader β} {rest : List Char}

theorem FirmAt.mono (h : FirmAt goesOn reader rest)
    (hgoesOn : ∀ c, goesOn c = true → goesOn' c = true) : FirmAt goesOn' reader rest := by
  intro x shorter hread
  obtain ⟨text, htext, hblank, hfirm⟩ := h x shorter hread
  exact ⟨text, htext, hblank, fun other hother hstop => hfirm other hother (hstop.mono hgoesOn)⟩

theorem Firm.mono (h : Firm limit goesOn reader)
    (hgoesOn : ∀ c, goesOn c = true → goesOn' c = true) : Firm limit goesOn' reader :=
  fun rest hrest => (h rest hrest).mono hgoesOn

theorem Firm.wider (h : Firm limit goesOn reader) (hle : limit' ≤ limit) :
    Firm limit' goesOn reader :=
  fun rest hrest => h rest (Nat.lt_of_lt_of_le hrest hle)

theorem firm_zero (goesOn : Char → Bool) (reader : Reader β) : Firm 0 goesOn reader :=
  fun _ hrest => absurd hrest (Nat.not_lt_zero _)

/-- A reader that is firm in front of every text is not misled by a text that goes on. -/
theorem honest_of_firm (h : ∀ limit, Firm limit goesOn reader) : Honest reader := by
  intro text x rest hread
  obtain ⟨before, htext, -, hfirm⟩ := h _ text (Nat.lt_succ_self _) x rest hread
  have hcut := hfirm [] (unlike_nil _) (unlike_nil _)
  rw [List.append_nil] at hcut
  exact ⟨before, htext, hcut⟩

theorem FirmAt.map (h : FirmAt goesOn reader rest) (f : β → γ) :
    FirmAt goesOn (Reader.map f reader) rest := by
  intro y shorter hread
  obtain ⟨⟨x, shorter⟩, hinner, heq⟩ := Option.map_eq_some_iff.mp hread
  cases heq
  obtain ⟨text, htext, hblank, hfirm⟩ := h _ _ hinner
  refine ⟨text, htext, hblank, fun other hother hstop => ?_⟩
  rw [Reader.map, hfirm other hother hstop]
  rfl

theorem Firm.map (h : Firm limit goesOn reader) (f : β → γ) :
    Firm limit goesOn (Reader.map f reader) :=
  fun rest hrest => (h rest hrest).map f

/-- Of two readers whose texts begin differently, the second one is never misled by the first. -/
theorem Firm.or (h : Firm limit goesOn reader) (h' : Firm limit goesOn reader')
    (hheads : Heads heads reader) (hheads' : Heads heads' reader')
    (hapart : ∀ c, heads c = true → heads' c = false) :
    Firm limit goesOn fun rest => (reader rest).or (reader' rest) := by
  intro rest hrest x shorter hread
  rcases Option.or_eq_some_iff.mp hread with hread | ⟨-, hread⟩
  · obtain ⟨text, htext, hblank, hfirm⟩ := h rest hrest x shorter hread
    refine ⟨text, htext, hblank, fun other hother hstop => ?_⟩
    change (reader (text ++ other)).or _ = _
    rw [hfirm other hother hstop, Option.some_or]
  · obtain ⟨text, htext, hbegins, hblank, hfirm⟩ := (h' rest hrest).exists_text hheads' hread
    refine ⟨text, htext, hblank, fun other hother hstop => ?_⟩
    change (reader (text ++ other)).or (reader' (text ++ other)) = _
    rw [hheads.refuses (hbegins.append other) hapart, Option.none_or, hfirm other hother hstop]

/-- One reader behind another: what the second one begins with does not go on with the first. -/
theorem Firm.bind {further : β → Reader γ} (h : Firm limit goesOn reader)
    (hfurther : ∀ x rest, byteLength rest < limit → Unlike Text.isBlank rest →
      FirmAt goesOn' (further x) rest)
    (hheads : ∀ x, Heads heads (further x)) (hapart : ∀ c, heads c = true → goesOn c = false) :
    Firm limit goesOn' fun rest => (reader rest).bind fun (x, rest) => further x rest := by
  intro rest hrest y shorter hread
  obtain ⟨⟨x, inner⟩, hfirst, hsecond⟩ := Option.bind_eq_some_iff.mp hread
  obtain ⟨text, rfl, hblank, hfirm⟩ := h rest hrest _ _ hfirst
  rw [Text.byteLength_append] at hrest
  obtain ⟨text', rfl, hbegins, hblank', hfirm'⟩ :=
    (hfurther x inner (by omega) hblank).exists_text (hheads x) hsecond
  refine ⟨text ++ text', (List.append_assoc _ _ _).symm, hblank', fun other hother hstop => ?_⟩
  have hunlike : Unlike Text.isBlank (text' ++ other) := unlike_append hblank hother
  beta_reduce
  rw [List.append_assoc, hfirm _ hunlike (hbegins.unlike hunlike hapart), Option.bind_some]
  exact hfirm' other hother hstop

/-- A reader that may be gone on from. -/
theorem Firm.extended {further : β → Reader β} (h : Firm limit goesOn reader)
    (hfurther : ∀ x, Firm limit goesOn' (further x)) (hheads : ∀ x, Heads heads (further x))
    (hapart : ∀ c, heads c = true → goesOn c = false)
    (hgoesOn : ∀ c, (goesOn c || heads c) = true → goesOn' c = true) :
    Firm limit goesOn' fun rest =>
      (reader rest).map fun (x, rest) => (further x rest).getD (x, rest) := by
  intro rest hrest y shorter hread
  obtain ⟨⟨x, inner⟩, hfirst, heq⟩ := Option.map_eq_some_iff.mp hread
  obtain ⟨text, rfl, hblank, hfirm⟩ := h rest hrest _ _ hfirst
  dsimp only at heq
  cases hsecond : further x inner with
  | none =>
      rw [hsecond] at heq
      cases heq
      refine ⟨text, rfl, hblank, fun other hother hstop => ?_⟩
      have hnone : further y other = none :=
        (hheads y).eq_none hother (hstop.mono fun c hc => hgoesOn c (by rw [hc, Bool.or_true]))
      beta_reduce
      rw [hfirm other hother (hstop.mono fun c hc => hgoesOn c (by rw [hc, Bool.true_or])),
        Option.map_some]
      dsimp only
      rw [hnone]
      rfl
  | some found =>
      rw [hsecond] at heq
      cases heq
      rw [Text.byteLength_append] at hrest
      obtain ⟨text', rfl, hbegins, hblank', hfirm'⟩ :=
        (hfurther x inner (by omega)).exists_text (hheads x) hsecond
      refine ⟨text ++ text', (List.append_assoc _ _ _).symm, hblank', fun other hother hstop => ?_⟩
      have hunlike : Unlike Text.isBlank (text' ++ other) := unlike_append hblank hother
      beta_reduce
      rw [List.append_assoc, hfirm _ hunlike (hbegins.unlike hunlike hapart), Option.map_some]
      dsimp only
      rw [hfirm' other hother hstop]
      rfl

end Firm

/-! ## Symbols -/

/-- The character that a symbol begins with. -/
def front (symbol : String) : Char := symbol.toList.headD ' '

theorem toList_eq_front {symbol : String} (h : symbol ≠ "") :
    symbol.toList = front symbol :: symbol.toList.tail := by
  have hne : symbol.toList ≠ [] := fun hnil => h (String.toList_eq_nil_iff.mp hnil)
  obtain ⟨c, cs, hcs⟩ := List.exists_cons_of_ne_nil hne
  rw [front, hcs]
  rfl

section Symbols

variable {limit : Nat} {goesOn : Char → Bool} {symbol : String} {reader : Reader β}
  {rest shorter : List Char}

theorem begins_of_behind (hsymbol : symbol ≠ "") (h : behind symbol rest = some shorter) :
    Begins (· == front symbol) rest := by
  obtain ⟨hstarts, -⟩ := Option.ite_none_right_eq_some.mp h
  obtain ⟨tail, htail⟩ := List.isPrefixOf_iff_prefix.mp hstarts
  rw [toList_eq_front hsymbol] at htail
  exact ⟨_, _, htail.symm, beq_self_eq_true _⟩

/-- A symbol is found again in front of anything but white space. -/
theorem behind_exists_text (hsymbol : symbol ≠ "") (h : behind symbol rest = some shorter) :
    ∃ text, rest = text ++ shorter ∧ Unlike Text.isBlank shorter ∧
      ∀ other, Unlike Text.isBlank other → behind symbol (text ++ other) = some other := by
  obtain ⟨hstarts, heq⟩ := Option.ite_none_right_eq_some.mp h
  obtain ⟨tail, htail⟩ := List.isPrefixOf_iff_prefix.mp hstarts
  rw [← htail, List.drop_left, Option.some.injEq] at heq
  subst heq
  have hvisible : Text.isBlank (front symbol) = false := by
    have hunlike := unlike_skipBlanks rest
    rw [← htail, toList_eq_front hsymbol] at hunlike
    exact unlike_cons.mp hunlike
  refine ⟨rest.takeWhile Text.isBlank ++ (symbol.toList ++ tail.takeWhile Text.isBlank), ?_,
    unlike_skipBlanks tail, fun other hother => ?_⟩
  · rw [List.append_assoc, List.append_assoc, ← takeWhile_append_skipBlanks tail, htail]
    exact takeWhile_append_skipBlanks rest
  · have hskip : ∀ text : List Char,
        skipBlanks (text.takeWhile Text.isBlank ++ other) = other := by
      intro text
      rw [skipBlanks, List.dropWhile_append_of_pos (List.all_eq_true.mp List.all_takeWhile)]
      exact skip_of_unlike hother
    rw [← behind_skipBlanks, List.append_assoc, skipBlanks,
      List.dropWhile_append_of_pos (List.all_eq_true.mp List.all_takeWhile), ← skipBlanks,
      behind_skipBlanks, List.append_assoc, behind_append (toList_eq_front hsymbol) hvisible, hskip]

theorem heads_behind (hsymbol : symbol ≠ "") (reader : Reader β) :
    Heads (· == front symbol) fun rest => (behind symbol rest).bind reader := by
  intro rest x shorter hread
  obtain ⟨inner, hbehind, -⟩ := Option.bind_eq_some_iff.mp hread
  exact begins_of_behind hsymbol hbehind

/-- A reader behind a symbol, where it finds no white space in front. -/
theorem firm_behind (hsymbol : symbol ≠ "")
    (h : ∀ rest, byteLength rest < limit → Unlike Text.isBlank rest → FirmAt goesOn reader rest) :
    Firm (limit + 1) goesOn fun rest => (behind symbol rest).bind reader := by
  intro rest hrest x shorter hread
  obtain ⟨inner, hbehind, hinner⟩ := Option.bind_eq_some_iff.mp hread
  have hlt := behind_lt hsymbol hbehind
  obtain ⟨text, rfl, hblank, hfirm⟩ := behind_exists_text hsymbol hbehind
  obtain ⟨text', rfl, hblank', hfirm'⟩ := h inner (by omega) hblank x shorter hinner
  refine ⟨text ++ text', (List.append_assoc _ _ _).symm, hblank', fun other hother hstop => ?_⟩
  beta_reduce
  rw [List.append_assoc, hfirm _ (unlike_append hblank hother), Option.bind_some]
  exact hfirm' other hother hstop

end Symbols

end Packrat.Reader
