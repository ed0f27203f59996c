import Mathlib.Data.List.Basic

/-!
# Dialogues

Two parties talk by turns: one asks, and before it is heard again the other one tells what it has to
tell.  `Ans req ws more` says that the words `ws` answer the request `req`, and whether the dialogue
goes on after them.

* `Dialogue Ans` : every request was answered, and the dialogue goes on.
* `Dialogue.Over Ans` : every request was answered, and nobody talks any more.
* `Talking Ans left` : in the middle of an answer, of which `left` says what may still be told.
* `Dialogue.ask`, `Talking.tell`, `Talking.answered`, `Talking.ended` : the turns of the dialogue.
-/

namespace UnderFlow

/-- One turn of a dialogue: a request, or a word of the answer. -/
inductive Talk (R W : Type*) where
  | asked (req : R)
  | told (w : W)
  deriving DecidableEq

variable {R W : Type*}

/-- A request and what was told on it. -/
def turns (req : R) (ws : List W) : List (Talk R W) := .asked req :: ws.map .told

variable {Ans : R → List W → Bool → Prop} {left left' : List W → Bool → Prop}
  {tr : List (Talk R W)} {req : R} {ws vs : List W}

/-- **A dialogue**: one exchange after the other, each of them complete. -/
inductive Dialogue (Ans : R → List W → Bool → Prop) : List (Talk R W) → Prop
  | nil : Dialogue Ans []
  | exchange {tr : List (Talk R W)} {req : R} {ws : List W} :
      Dialogue Ans tr → Ans req ws true → Dialogue Ans (tr ++ turns req ws)

/-- A dialogue that is over: the last exchange may be one that ends it. -/
def Dialogue.Over (Ans : R → List W → Bool → Prop) (tr : List (Talk R W)) : Prop :=
  Dialogue Ans tr ∨
    ∃ tr₀ req ws, Dialogue Ans tr₀ ∧ Ans req ws false ∧ tr = tr₀ ++ turns req ws

/-- In the middle of an answer: the words told so far and those still to come make one. -/
def Talking (Ans : R → List W → Bool → Prop) (left : List W → Bool → Prop)
    (tr : List (Talk R W)) : Prop :=
  ∃ tr₀ req ws, Dialogue Ans tr₀ ∧ tr = tr₀ ++ turns req ws ∧
    ∀ rest more, left rest more → Ans req (ws ++ rest) more

theorem turns_append (req : R) (ws vs : List W) :
    turns req (ws ++ vs) = turns req ws ++ vs.map .told := by
  simp only [turns, List.map_append, List.cons_append]

theorem Dialogue.ended (h : Dialogue Ans tr) : Dialogue.Over Ans tr := .inl h

/-- A request is heard: the answer is still to come. -/
theorem Dialogue.ask (h : Dialogue Ans tr)
    (hleft : ∀ rest more, left rest more → Ans req rest more) :
    Talking Ans left (tr ++ [.asked req]) :=
  ⟨tr, req, [], h, rfl, hleft⟩

/-- Some words of the answer are told. -/
theorem Talking.tell (h : Talking Ans left tr)
    (hleft : ∀ rest more, left' rest more → left (ws ++ rest) more) :
    Talking Ans left' (tr ++ ws.map .told) := by
  obtain ⟨tr₀, req, vs, hdone, rfl, hans⟩ := h
  refine ⟨tr₀, req, vs ++ ws, hdone, ?_, fun rest more hrest => ?_⟩
  · rw [turns_append, List.append_assoc]
  · rw [List.append_assoc]
    exact hans _ _ (hleft rest more hrest)

/-- The last words of an answer are told. -/
theorem Talking.answered (h : Talking Ans left tr) (hleft : left ws true) :
    Dialogue Ans (tr ++ ws.map .told) := by
  obtain ⟨tr₀, req, vs, hdone, rfl, hans⟩ := h
  rw [List.append_assoc, ← turns_append]
  exact hdone.exchange (hans ws true hleft)

/-- The last words of the dialogue are told. -/
theorem Talking.ended (h : Talking Ans left tr) (hleft : left ws false) :
    Dialogue.Over Ans (tr ++ ws.map .told) := by
  obtain ⟨tr₀, req, vs, hdone, rfl, hans⟩ := h
  refine .inr ⟨tr₀, req, vs ++ ws, hdone, hans ws false hleft, ?_⟩
  rw [turns_append, List.append_assoc]

/-- An answer that can be finished is the beginning of one. -/
theorem Talking.exists_rest (h : Talking Ans left tr) (hleft : ∃ rest more, left rest more) :
    ∃ rest : List W, Dialogue.Over Ans (tr ++ rest.map .told) := by
  obtain ⟨rest, more, hrest⟩ := hleft
  cases more with
  | true => exact ⟨rest, (h.answered hrest).ended⟩
  | false => exact ⟨rest, h.ended hrest⟩

end UnderFlow
