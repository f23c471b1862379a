import Packrat.Proofs.Plain.Lexeme

/-!
# Readers and languages

A language says which texts denote what.  A reader is exact for a language if it takes nothing but
texts of the language, and takes all of such a text where what follows does not go on with it.
-/

namespace Packrat.Reader

open Text (byteLength)

variable {β γ : Type}

/--
On texts of less than `limit` bytes, the reader reads the language: what it takes belongs to the
language, and it takes a text of the language in front of whatever stops it.
-/
structure Exact (limit : Nat) (reader : Reader β) (language : List Char → β → Prop)
    (stops : List Char → Prop) : Prop where
  sound : ∀ {rest x shorter}, byteLength rest < limit → reader rest = some (x, shorter) →
    ∃ text, rest = text ++ shorter ∧ language text x
  complete : ∀ {text x shorter}, byteLength (text ++ shorter) < limit → language text x →
    stops shorter → reader (text ++ shorter) = some (x, shorter)

/-- The text does not begin with a character of the given kind. -/
def Unlike (accepts : Char → Bool) (rest : List Char) : Prop :=
  ∀ c ∈ rest.head?, accepts c = false

@[simp] theorem unlike_nil (accepts : Char → Bool) : Unlike accepts [] := by
  simp [Unlike]

@[simp] theorem unlike_cons {accepts : Char → Bool} {c : Char} {rest : List Char} :
    Unlike accepts (c :: rest) ↔ accepts c = false := by
  simp [Unlike]

theorem Unlike.takeWhile_append {accepts : Char → Bool} {text rest : List Char}
    (h : Unlike accepts rest) (htext : ∀ c ∈ text, accepts c = true) :
    (text ++ rest).takeWhile accepts = text := by
  rw [List.takeWhile_append_of_pos htext]
  cases rest with
  | nil => simp
  | cons c rest => simp [unlike_cons.mp h]

theorem Unlike.dropWhile_append {accepts : Char → Bool} {text rest : List Char}
    (h : Unlike accepts rest) (htext : ∀ c ∈ text, accepts c = true) :
    (text ++ rest).dropWhile accepts = rest := by
  rw [List.dropWhile_append_of_pos htext]
  cases rest with
  | nil => simp
  | cons c rest => simp [unlike_cons.mp h]

theorem unlike_dropWhile (accepts : Char → Bool) (rest : List Char) :
    Unlike accepts (rest.dropWhile accepts) := by
  induction rest with
  | nil => simp
  | cons c rest ih =>
      cases haccepts : accepts c with
      | true => simpa [haccepts] using ih
      | false => simp [haccepts]

theorem Unlike.mono {accepts accepts' : Char → Bool} {rest : List Char} (h : Unlike accepts rest)
    (haccepts : ∀ c, accepts' c = true → accepts c = true) : Unlike accepts' rest := by
  intro c hc
  refine Bool.eq_false_iff.mpr fun htrue => ?_
  have hfalse := h c hc
  rw [haccepts c htrue] at hfalse
  cases hfalse

/-- Every text of the language begins with a character of the given kind. -/
def Leads (accepts : Char → Bool) (language : List Char → β → Prop) : Prop :=
  ∀ text x, language text x → ∃ c cs, text = c :: cs ∧ accepts c = true

namespace Exact

variable {limit : Nat} {reader reader' : Reader β} {language language' : List Char → β → Prop}
  {stops stops' : List Char → Prop}

/-- The same language in other words, in front of some of the texts that stop the reader. -/
theorem congr (h : Exact limit reader language stops)
    (hlanguage : ∀ text x, language text x ↔ language' text x)
    (hstops : ∀ rest, stops' rest → stops rest) : Exact limit reader language' stops' where
  sound hrest hread := by
    obtain ⟨text, htext, hx⟩ := h.sound hrest hread
    exact ⟨text, htext, (hlanguage _ _).mp hx⟩
  complete hrest hx hstop := h.complete hrest ((hlanguage _ _).mpr hx) (hstops _ hstop)

theorem map (f : β → γ) (h : Exact limit reader language stops) :
    Exact limit (Reader.map f reader) (fun text y => ∃ x, language text x ∧ y = f x) stops where
  sound hrest hread := by
    obtain ⟨⟨x, shorter⟩, hread', heq⟩ := Option.map_eq_some_iff.mp hread
    cases heq
    obtain ⟨text, htext, hx⟩ := h.sound hrest hread'
    exact ⟨text, htext, x, hx, rfl⟩
  complete hrest hx hstop := by
    obtain ⟨x, hx, rfl⟩ := hx
    rw [Reader.map, h.complete hrest hx hstop]
    rfl

/-- A reader reads nothing where no text of its language begins. -/
theorem eq_none {accepts : Char → Bool} (h : Exact limit reader language stops)
    (hleads : Leads accepts language) {rest : List Char} (hrest : byteLength rest < limit)
    (hunlike : Unlike accepts rest) : reader rest = none := by
  cases hread : reader rest with
  | none => rfl
  | some found =>
      obtain ⟨text, rfl, hx⟩ := h.sound hrest hread
      obtain ⟨c, cs, rfl, haccepts⟩ := hleads _ _ hx
      have hrefused : accepts c = false := hunlike c (by simp)
      rw [haccepts] at hrefused
      cases hrefused

/-! ## Alternatives -/

theorem first_nil : Exact limit (Reader.first []) (fun _ (_ : β) => False) stops where
  sound _ hread := by cases hread
  complete _ hx _ := hx.elim

/-- The first of several readers, which reads nothing where one of the others is to read. -/
theorem first_cons {readers : List (Reader β)} (h : Exact limit reader language stops)
    (hothers : Exact limit (Reader.first readers) language' stops)
    (hrefuse : ∀ text x shorter, byteLength (text ++ shorter) < limit → language' text x →
      stops shorter → reader (text ++ shorter) = none) :
    Exact limit (Reader.first (reader :: readers))
      (fun text x => language text x ∨ language' text x) stops where
  sound hrest hread := by
    rcases Option.or_eq_some_iff.mp hread with hread | ⟨-, hread⟩
    · obtain ⟨text, htext, hx⟩ := h.sound hrest hread
      exact ⟨text, htext, .inl hx⟩
    · obtain ⟨text, htext, hx⟩ := hothers.sound hrest hread
      exact ⟨text, htext, .inr hx⟩
  complete hrest hx hstop := by
    rw [Reader.first]
    rcases hx with hx | hx
    · rw [h.complete hrest hx hstop, Option.some_or]
    · rw [hrefuse _ _ _ hrest hx hstop, hothers.complete hrest hx hstop, Option.none_or]

/-- Nothing is read of a text where the language does not begin. -/
theorem optional {wrap : Option β → γ} {accepts : Char → Bool}
    (h : Exact limit reader language stops) (hleads : Leads accepts language) :
    Exact limit (Reader.optional wrap reader)
      (fun text y => (∃ x, language text x ∧ y = wrap (some x)) ∨ text = [] ∧ y = wrap none)
      (fun rest => stops rest ∧ Unlike accepts rest) where
  sound {rest y shorter} hrest hread := by
    rw [Reader.optional] at hread
    cases hfound : reader rest with
    | none =>
        rw [hfound] at hread
        cases hread
        exact ⟨[], rfl, .inr ⟨rfl, rfl⟩⟩
    | some found =>
        rw [hfound] at hread
        cases hread
        obtain ⟨text, htext, hx⟩ := h.sound hrest hfound
        exact ⟨text, htext, .inl ⟨_, hx, rfl⟩⟩
  complete hrest hy hstop := by
    rw [Reader.optional]
    rcases hy with ⟨x, hx, rfl⟩ | ⟨rfl, rfl⟩
    · rw [h.complete hrest hx hstop.1]
    · rw [h.eq_none hleads hrest hstop.2]
      rfl

/-! ## Sequences -/

theorem all_nil : Exact limit (Reader.all ([] : List (Reader β)))
    (fun text xs => text = [] ∧ xs = []) stops where
  sound _ hread := by
    cases hread
    exact ⟨[], rfl, rfl, rfl⟩
  complete _ hx _ := by
    obtain ⟨rfl, rfl⟩ := hx
    rfl

/-- What follows in a sequence has to stop the first reader. -/
theorem all_cons {readers : List (Reader β)} {languages : List Char → List β → Prop}
    (h : Exact limit reader language stops)
    (hothers : Exact limit (Reader.all readers) languages stops')
    (hstops : ∀ text xs shorter, languages text xs → stops' shorter → stops (text ++ shorter)) :
    Exact limit (Reader.all (reader :: readers))
      (fun text xs => ∃ first others x xs', text = first ++ others ∧ xs = x :: xs' ∧
        language first x ∧ languages others xs') stops' where
  sound {rest xs shorter} hrest hread := by
    rw [Reader.all] at hread
    obtain ⟨⟨x, behind⟩, hfirst, hread⟩ := Option.bind_eq_some_iff.mp hread
    obtain ⟨⟨xs', shorter'⟩, hall, heq⟩ := Option.map_eq_some_iff.mp hread
    cases heq
    obtain ⟨first, rfl, hx⟩ := h.sound hrest hfirst
    have hbehind : byteLength behind < limit := by
      rw [Text.byteLength_append] at hrest
      omega
    obtain ⟨others, rfl, hxs⟩ := hothers.sound hbehind hall
    exact ⟨first ++ others, (List.append_assoc _ _ _).symm, first, others, x, xs', rfl, rfl, hx,
      hxs⟩
  complete {text xs shorter} hrest hxs hstop := by
    obtain ⟨first, others, x, xs', rfl, rfl, hx, hxs⟩ := hxs
    rw [List.append_assoc] at hrest ⊢
    rw [Reader.all, h.complete hrest hx (hstops _ _ _ hxs hstop), Option.bind_some]
    rw [Text.byteLength_append] at hrest
    dsimp only
    rw [hothers.complete (by omega) hxs hstop]
    rfl

end Exact

/-! ## Repetition -/

/-- Texts of a language one behind another. -/
inductive Star (language : List Char → β → Prop) : List Char → List β → Prop where
  | nil : Star language [] []
  | cons {text texts : List Char} {x : β} {xs : List β} (h : language text x)
      (hs : Star language texts xs) : Star language (text ++ texts) (x :: xs)

namespace Exact

variable {limit : Nat} {reader : Reader β} {language : List Char → β → Prop}
  {stops : List Char → Prop}

/-- A repetition goes on until nothing more is read; none of its texts is empty. -/
theorem many (h : Exact limit reader language stops)
    (hne : ∀ text x, language text x → text ≠ [])
    (hstops : ∀ text xs shorter, Star language text xs → stops shorter →
      stops (text ++ shorter)) :
    Exact limit (fun rest => some (Reader.many reader rest)) (Star language)
      (fun rest => stops rest ∧ reader rest = none) where
  sound {rest xs shorter} hrest hread := by
    have hmany := Option.some.inj hread
    clear hread
    fun_induction Reader.many reader rest generalizing xs with
    | case1 rest hnone =>
        cases hmany
        exact ⟨[], rfl, .nil⟩
    | case2 rest x behind hread hlt ih =>
        obtain ⟨text, rfl, hx⟩ := h.sound hrest hread
        cases hmany
        obtain ⟨texts, htexts, hxs⟩ := ih (Nat.lt_trans hlt hrest) rfl
        exact ⟨text ++ texts, by rw [List.append_assoc, ← htexts], .cons hx hxs⟩
    | case3 rest x behind hread hlt =>
        obtain ⟨text, rfl, hx⟩ := h.sound hrest hread
        refine absurd ?_ hlt
        have hpos : byteLength text ≠ 0 := fun hzero =>
          hne _ _ hx (Text.byteLength_eq_zero_iff.mp hzero)
        rw [Text.byteLength_append]
        omega
  complete {text xs shorter} hrest hxs hstop := by
    refine congrArg some ?_
    induction hxs with
    | nil => exact many_of_none hstop.2
    | @cons text texts x xs hx hs ih =>
        rw [List.append_assoc] at hrest ⊢
        have hread := h.complete hrest hx (hstops _ _ _ hs hstop.1)
        have hpos : byteLength text ≠ 0 := fun hzero =>
          hne _ _ hx (Text.byteLength_eq_zero_iff.mp hzero)
        rw [Text.byteLength_append] at hrest
        rw [many_of_some hread (by rw [Text.byteLength_append text]; omega), ih (by omega)]
        rfl

end Exact

end Packrat.Reader

/-! ## Characters and fixed texts -/

namespace Packrat.Parser

open Reader

variable {α : Type} {limit : Nat}

theorem satisfy_exact (accepts : Char → Bool) (payload : Char → α) :
    Exact limit (satisfy accepts payload).read
      (fun text x => ∃ c, text = [c] ∧ accepts c = true ∧ x = payload c) (fun _ => True) where
  sound {rest x shorter} _ hread := by
    rw [read_satisfy] at hread
    cases rest with
    | nil => cases hread
    | cons c rest =>
        obtain ⟨haccepts, heq⟩ := Option.ite_none_right_eq_some.mp hread
        cases heq
        exact ⟨[c], rfl, c, rfl, haccepts, rfl⟩
  complete _ hx _ := by
    obtain ⟨c, rfl, haccepts, rfl⟩ := hx
    rw [read_satisfy]
    exact if_pos haccepts

/-- A fixed text, whatever its payload. -/
theorem literal_exact (chars : List Char) (payload : α) :
    Exact limit (literal chars payload).read (fun text x => text = chars ∧ x = payload)
      (fun _ => True) where
  sound {rest x shorter} _ hread := by
    rw [Parser.read, means] at hread
    obtain ⟨found, hfound, heq⟩ := Option.map_eq_some_iff.mp hread
    obtain ⟨hstarts, hsome⟩ := Option.ite_none_right_eq_some.mp hfound
    cases hsome
    cases heq
    obtain ⟨tail, rfl⟩ := List.isPrefixOf_iff_prefix.mp hstarts
    exact ⟨chars, by rw [List.drop_left], rfl, rfl⟩
  complete {text x shorter} _ hx _ := by
    obtain ⟨rfl, rfl⟩ := hx
    have hstarts : text.isPrefixOf (text ++ shorter) = true :=
      List.isPrefixOf_iff_prefix.mpr (List.prefix_append _ _)
    rw [Parser.read, means, if_pos hstarts, List.drop_left]
    rfl

end Packrat.Parser
