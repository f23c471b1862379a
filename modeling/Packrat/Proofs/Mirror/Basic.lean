import Packrat.Proofs.Plain.Meaning
import Packrat.Proofs.Tracking.Combinators

/-!
# Runs that mirror another run

`Mirrors` says that wherever one computation ends with a result, two others end as well, alike and
with a result that corresponds to it.  The computations may begin in different states: one may use
caches that the other does not, or have used up other tags.  A `Bond` says which cursors and which
states correspond; it lasts for the calls that one node makes.
-/

namespace Packrat

variable {α β γ δ : Type}

/--
Wherever the first computation returns, the two others return, both the same, and what they return
corresponds to it.
-/
def Mirrors (action : EngineM α β) (engine : Engine α) (action' action'' : EngineM α γ)
    (engine' : Engine α) (post : β → Engine α → γ → Engine α → Prop) : Prop :=
  ∀ result out, action engine = .ok (result, out) →
    Tracks (fun _ => False) action' action'' engine' (post result out)

namespace Mirrors

variable {engine engine' : Engine α} {post : β → Engine α → γ → Engine α → Prop}

theorem pure {result : β} {result' : γ} (h : post result engine result' engine') :
    Mirrors (Pure.pure result) engine (Pure.pure result') (Pure.pure result') engine' post := by
  intro found out hrun
  cases hrun
  exact Tracks.pure h

/-- A computation that stops is mirrored by any. -/
theorem of_stop {action : EngineM α β} {action' action'' : EngineM α γ} {stop : Stop}
    (hrun : action engine = .error stop) : Mirrors action engine action' action'' engine' post := by
  intro found out hfound
  rw [hrun] at hfound
  cases hfound

/-- Computations whose outcomes are known. -/
theorem of_eq {action : EngineM α β} {action' : EngineM α γ} {result : β} {result' : γ}
    {out out' : Engine α} (hrun : action engine = .ok (result, out))
    (hrun' : action' engine' = .ok (result', out')) (h : post result out result' out') :
    Mirrors action engine action' action' engine' post := by
  intro found found' hfound
  rw [hrun] at hfound
  cases hfound
  exact Tracks.of_eq hrun' h

/-- Two computations in a row. -/
theorem bind {ε : Type} {action : EngineM α β} {next : β → EngineM α δ}
    {action' action'' : EngineM α γ} {next' next'' : γ → EngineM α ε}
    {post : δ → Engine α → ε → Engine α → Prop}
    (h : Mirrors action engine action' action'' engine' fun result out result' out' =>
      Mirrors (next result) out (next' result') (next'' result') out' post) :
    Mirrors (action >>= next) engine (action' >>= next') (action'' >>= next'') engine' post := by
  intro result out hrun
  obtain ⟨first, mid, hfirst, hnext⟩ := bind_eq_ok hrun
  apply Tracks.bind
  apply (h first mid hfirst).mono
  intro first' mid' hmirrors
  exact hmirrors result out hnext

theorem mono {action : EngineM α β} {action' action'' : EngineM α γ}
    {weaker : β → Engine α → γ → Engine α → Prop}
    (h : Mirrors action engine action' action'' engine' post)
    (himp : ∀ result out result' out', post result out result' out' →
      weaker result out result' out') :
    Mirrors action engine action' action'' engine' weaker :=
  fun result out hrun => (h result out hrun).mono (himp result out)

end Mirrors

/-! ## Cursors that are alike -/

theorem Left.content_eq_empty_iff {left : Left α} : left.content = .empty ↔ left = .empty := by
  cases left <;> simp [content]

theorem Left.isOperand_eq_of_content {left left' : Left α} (h : left'.content = left.content) :
    left'.isOperand = left.isOperand := by
  cases left <;> cases left' <;> first | rfl | cases h

/-- Two cursors at one place, with the same to the left of them but for the tags of operands. -/
structure Cursor.Like (cursor cursor' : Cursor α) : Prop where
  source_eq : cursor'.source = cursor.source
  offset_eq : cursor'.offset = cursor.offset
  content_eq : cursor'.left.content = cursor.left.content

namespace Cursor.Like

variable {cursor cursor' cursor'' : Cursor α}

theorem refl (cursor : Cursor α) : cursor.Like cursor := ⟨rfl, rfl, rfl⟩

theorem of_eq (h : cursor' = cursor) : cursor.Like cursor' := h ▸ refl cursor

theorem symm (h : cursor.Like cursor') : cursor'.Like cursor :=
  ⟨h.source_eq.symm, h.offset_eq.symm, h.content_eq.symm⟩

theorem trans (h : cursor.Like cursor') (h' : cursor'.Like cursor'') : cursor.Like cursor'' :=
  ⟨h'.source_eq.trans h.source_eq, h'.offset_eq.trans h.offset_eq,
    h'.content_eq.trans h.content_eq⟩

theorem rest_eq (h : cursor.Like cursor') : cursor'.rest = cursor.rest := by
  rw [cursor'.rest_eq, cursor.rest_eq, h.source_eq, h.offset_eq]

theorem atEnd_eq (h : cursor.Like cursor') : cursor'.atEnd = cursor.atEnd := by
  rw [Cursor.atEnd, Cursor.atEnd, h.source_eq, h.offset_eq]

theorem isOperand_eq (h : cursor.Like cursor') :
    cursor'.left.isOperand = cursor.left.isOperand :=
  Left.isOperand_eq_of_content h.content_eq

theorem isEmpty_eq (h : cursor.Like cursor') : cursor'.left.isEmpty = cursor.left.isEmpty := by
  rw [Bool.eq_iff_iff, Left.isEmpty_iff, Left.isEmpty_iff, ← Left.content_eq_empty_iff,
    h.content_eq, Left.content_eq_empty_iff]

/-- What is put to the left of both may differ in its tag. -/
theorem withLeft (h : cursor.Like cursor') {left left' : Left α}
    (hleft : left'.content = left.content) : (cursor.withLeft left).Like (cursor'.withLeft left') :=
  ⟨h.source_eq, h.offset_eq, hleft⟩

theorem consume (h : cursor.Like cursor') {taken rest : List Char}
    (hrest : cursor.rest = taken ++ rest) (hrest' : cursor'.rest = taken ++ rest) :
    (cursor.consume taken rest hrest).Like (cursor'.consume taken rest hrest') :=
  ⟨h.source_eq, congrArg (· + Text.byteLength taken) h.offset_eq, h.content_eq⟩

end Cursor.Like

/-! ## Bonds -/

/-- The node keeps nothing in the engine, and moves on only where its parts do. -/
def Parser.Stateless : Parser α → Prop
  | .guarded _ _ | .climb _ _ | .memo _ _ _ | .clearing _ _ _ | .logged _ _ | .redirected _ _ =>
      False
  | _ => True

/-- Which cursors and which states of two runs correspond while a node makes its calls. -/
structure Bond (α : Type) where
  like : Cursor α → Cursor α → Prop
  holds : Engine α → Engine α → Prop
  alike : ∀ {cursor cursor'}, like cursor cursor' → cursor.Like cursor'
  withLeft : ∀ {cursor cursor' left}, like cursor cursor' → left.isOperand = false →
    like (cursor.withLeft left) (cursor'.withLeft left)
  consume : ∀ {cursor cursor' taken rest} (h : like cursor cursor')
    (hrest : cursor.rest = taken ++ rest),
      like (cursor.consume taken rest hrest)
        (cursor'.consume taken rest ((alike h).rest_eq.trans hrest))

/-- The outputs have the same payload and go on at cursors that correspond. -/
structure Output.Same (like : Cursor α → Cursor α → Prop) (output output' : Output α) : Prop where
  payload_eq : output'.payload = output.payload
  next : like output.next output'.next

namespace Bond

variable (bond : Bond α) {output output' : Output α} {found found' : Option (Output α)}
  {engine engine' : Engine α}

/-- The matches of both runs have the same payload and go on at cursors that correspond. -/
abbrev Same : Output α → Output α → Prop := Output.Same bond.like

/-- Both runs find the same and leave states that correspond. -/
def Found (found : Option (Output α)) (engine : Engine α) (found' : Option (Output α))
    (engine' : Engine α) : Prop :=
  bond.holds engine engine' ∧ Option.Rel bond.Same found found'

/-- The first call of a parser is mirrored by the two others, wherever the node may call it. -/
def Mirrored (call call' call'' : Call α) (parser : Parser α) : Prop :=
  ∀ {cursor cursor' engine engine'}, bond.like cursor cursor' → bond.holds engine engine' →
    Mirrors (call parser cursor) engine (call' parser cursor') (call'' parser cursor') engine'
      bond.Found

variable {bond}

theorem Same.offset_eq (h : bond.Same output output') : output'.next.offset = output.next.offset :=
  (bond.alike h.next).offset_eq

theorem Found.none (h : bond.holds engine engine') :
    bond.Found Option.none engine Option.none engine' :=
  ⟨h, .none⟩

theorem Found.some (h : bond.holds engine engine') (hsame : bond.Same output output') :
    bond.Found (Option.some output) engine (Option.some output') engine' :=
  ⟨h, .some hsame⟩

/-- Where only the same cursors correspond, both runs find the same. -/
theorem found_iff_of_eq (hlike : ∀ {cursor cursor'}, bond.like cursor cursor' ↔ cursor' = cursor) :
    bond.Found found engine found' engine' ↔ bond.holds engine engine' ∧ found' = found := by
  constructor
  · rintro ⟨hholds, hfound⟩
    refine ⟨hholds, ?_⟩
    cases hfound with
    | none => rfl
    | @some output output' hsame =>
        obtain ⟨payload, next⟩ := output
        obtain ⟨payload', next'⟩ := output'
        obtain ⟨rfl, rfl⟩ : payload' = payload ∧ next' = next :=
          ⟨hsame.payload_eq, hlike.mp hsame.next⟩
        rfl
  · rintro ⟨hholds, rfl⟩
    cases found' with
    | none => exact .none hholds
    | some output => exact .some hholds ⟨rfl, hlike.mpr rfl⟩

end Bond

end Packrat
