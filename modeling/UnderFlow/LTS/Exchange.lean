import Mathlib.Data.Set.Insert
import Mathlib.Data.List.Induction
import Mathlib.Logic.Function.Basic
import Mathlib.Algebra.Order.Ring.Int

/-!
# A trading house

Goods on a shelf, owners with a purse, and orders on a board.  Every deal is one move: there is no
point between paying and getting.  What is traded, who trades, what it costs and which goods suit an
order are parameters.

* `Exchange`, `Deal` : the states and the moves.
* `Deal.Allowed`, `Exchange.after` : when a move can be made, and what it does.
* `Exchange.Makes` : a list of moves, each allowed where it is made.
* `Exchange.Exclusive` : nothing has two owners, and nothing owned is for sale (`Makes.exclusive`).
* `Exchange.Solid` : nobody is in debt (`Makes.solid`).
* `offer_between`, `post_between` : what is bought twice was offered in between, and an order filled
  twice was posted in between.
* `owned_of_makes` : what somebody owns was owned or bought.
-/

namespace UnderFlow

variable {κ δ ι ω : Type*}

/-- What things are worth. -/
structure Terms (δ ω : Type*) where
  /-- What a piece of goods costs. -/
  price : δ → ℤ
  /-- What an order pays. -/
  reward : ω → ℤ
  /-- The goods are what the order asks for. -/
  suits : ω → List δ → Prop
  /-- What is in the purse of the ruined. -/
  ruined : ℤ

/-- The state of the house. -/
@[ext]
structure Exchange (κ δ ι ω : Type*) where
  /-- The goods for sale. -/
  shelf : Set δ
  /-- The goods of a customer. -/
  owns : κ → Set δ
  /-- The balance of a customer who has an account. -/
  purse : κ → Option ℤ
  /-- The order at a place of the board. -/
  board : ι → Option ω

/-- A move. -/
inductive Deal (κ δ ι ω : Type*) where
  | offer (d : δ)
  | expire (ds : List δ)
  | buy (k : κ) (d : δ)
  | post (i : ι) (o : ω)
  | withdraw (is : List ι)
  /-- The order `o` in place `i` is filled with goods. -/
  | sell (k : κ) (i : ι) (o : ω) (ds : List δ)
  | discard (k : κ) (d : δ)
  | join (k : κ) (x : ℤ)
  | assign (k : κ) (x : ℤ)
  | pay (k : κ) (x : ℤ)
  | ruin (k : κ)
  deriving DecidableEq

/-! ### Moves -/

section

variable [DecidableEq κ] [DecidableEq ι] (T : Terms δ ω)

/-- What is for sale after a move. -/
def Deal.shelf : Deal κ δ ι ω → Set δ → Set δ
  | .offer d, s => insert d s
  | .expire ds, s => {d ∈ s | d ∉ ds}
  | .buy _ d, s => {e ∈ s | e ≠ d}
  | _, s => s

/-- What everybody owns after a move. -/
def Deal.owns : Deal κ δ ι ω → (κ → Set δ) → κ → Set δ
  | .buy k d, f => Function.update f k (insert d (f k))
  | .sell k _ _ ds, f => Function.update f k {d ∈ f k | d ∉ ds}
  | .discard k d, f => Function.update f k {e ∈ f k | e ≠ d}
  | _, f => f

/-- What everybody has after a move. -/
def Deal.purse : Deal κ δ ι ω → (κ → Option ℤ) → κ → Option ℤ
  | .buy k d, f => Function.update f k ((f k).map (· - T.price d))
  | .sell k _ o _, f => Function.update f k ((f k).map (· + T.reward o))
  | .join k x, f | .assign k x, f => Function.update f k (some x)
  | .pay k x, f => Function.update f k ((f k).map (· - x))
  | .ruin k, f => Function.update f k (some T.ruined)
  | _, f => f

/-- The orders after a move. -/
def Deal.board : Deal κ δ ι ω → (ι → Option ω) → ι → Option ω
  | .post i o, f => Function.update f i (some o)
  | .sell _ i _ _, f => Function.update f i none
  | .withdraw is, f => fun i => if i ∈ is then none else f i
  | _, f => f

/-- The move can be made. -/
def Deal.Allowed (E : Exchange κ δ ι ω) : Deal κ δ ι ω → Prop
  | .offer d => d ∉ E.shelf ∧ ∀ k, d ∉ E.owns k
  | .expire ds => ∀ d ∈ ds, d ∈ E.shelf
  | .buy k d => d ∈ E.shelf ∧ ∃ x, E.purse k = some x ∧ T.price d ≤ x
  | .post i o => E.board i = none ∧ 0 < T.reward o
  | .withdraw is => ∀ i ∈ is, E.board i ≠ none
  | .sell k i o ds => E.board i = some o ∧ (∀ d ∈ ds, d ∈ E.owns k) ∧ T.suits o ds ∧
    E.purse k ≠ none
  | .discard k d => d ∈ E.owns k
  | .join k x => E.purse k = none ∧ 0 ≤ x
  | .assign k x => E.purse k ≠ none ∧ 0 ≤ x
  | .pay k x => 0 ≤ x ∧ ∃ y, E.purse k = some y ∧ x ≤ y
  | .ruin k => E.purse k ≠ none

/-- The state after a move. -/
def Exchange.after (E : Exchange κ δ ι ω) (a : Deal κ δ ι ω) : Exchange κ δ ι ω where
  shelf := a.shelf E.shelf
  owns := a.owns E.owns
  purse := a.purse T E.purse
  board := a.board E.board

/-- The moves are made one after the other, each where it is allowed. -/
inductive Exchange.Makes (E : Exchange κ δ ι ω) : List (Deal κ δ ι ω) → Exchange κ δ ι ω → Prop
  | nil : E.Makes [] E
  | deal {as : List (Deal κ δ ι ω)} {E' : Exchange κ δ ι ω} {a : Deal κ δ ι ω}
      (h : E.Makes as E') (ha : a.Allowed T E') : E.Makes (as ++ [a]) (E'.after T a)

end

namespace Exchange

section

variable [DecidableEq κ] [DecidableEq ι] {T : Terms δ ω} {E E' E'' : Exchange κ δ ι ω}
  {a : Deal κ δ ι ω} {as bs : List (Deal κ δ ι ω)} {k k' : κ} {d : δ} {i : ι}

/-! ### Runs -/

/-- What every allowed move keeps holds after a run. -/
theorem Makes.invariant {I : Exchange κ δ ι ω → Prop} (h : E.Makes T as E') (h₀ : I E)
    (hstep : ∀ E a, a.Allowed T E → I E → I (E.after T a)) : I E' := by
  induction h with
  | nil => exact h₀
  | deal _ ha ih => exact hstep _ _ ha ih

theorem Makes.trans (h : E.Makes T as E') (h' : E'.Makes T bs E'') :
    E.Makes T (as ++ bs) E'' := by
  induction h' with
  | nil => rwa [List.append_nil]
  | deal _ ha ih =>
    rw [← List.append_assoc]
    exact ih.deal ha

theorem makes_nil : E.Makes T [] E' ↔ E' = E := by
  constructor
  · intro h
    generalize has : ([] : List (Deal κ δ ι ω)) = as at h
    cases h with
    | nil => rfl
    | deal h ha => simp at has
  · rintro rfl
    exact .nil

theorem makes_concat : E.Makes T (as ++ [a]) E' ↔
    ∃ E₁, E.Makes T as E₁ ∧ a.Allowed T E₁ ∧ E' = E₁.after T a := by
  constructor
  · intro h
    generalize hbs : as ++ [a] = bs at h
    cases h with
    | nil => simp at hbs
    | deal h ha =>
      obtain ⟨rfl, hab⟩ := List.append_inj' hbs rfl
      obtain rfl : a = _ := by simpa using hab
      exact ⟨_, h, ha, rfl⟩
  · rintro ⟨E₁, h, ha, rfl⟩
    exact h.deal ha

/-- A run in two parts. -/
theorem makes_append : E.Makes T (as ++ bs) E' ↔
    ∃ E₁, E.Makes T as E₁ ∧ E₁.Makes T bs E' := by
  constructor
  · intro h
    induction bs using List.reverseRecOn generalizing E' with
    | nil =>
      rw [List.append_nil] at h
      exact ⟨E', h, .nil⟩
    | append_singleton bs a ih =>
      rw [← List.append_assoc] at h
      obtain ⟨E₁, hpre, ha, rfl⟩ := makes_concat.1 h
      obtain ⟨E₂, has, hbs⟩ := ih hpre
      exact ⟨E₂, has, hbs.deal ha⟩
  · rintro ⟨E₁, has, hbs⟩
    exact has.trans hbs

theorem makes_cons : E.Makes T (a :: as) E' ↔
    a.Allowed T E ∧ (E.after T a).Makes T as E' := by
  rw [← List.singleton_append, makes_append]
  constructor
  · rintro ⟨E₁, h, has⟩
    rw [← List.nil_append [a]] at h
    obtain ⟨E₂, hpre, ha, rfl⟩ := makes_concat.1 h
    obtain rfl := makes_nil.1 hpre
    exact ⟨ha, has⟩
  · rintro ⟨ha, has⟩
    exact ⟨_, Makes.nil.deal ha, has⟩

/-! ### Owners -/

/-- Nothing has two owners, and nothing owned is for sale. -/
structure Exclusive (E : Exchange κ δ ι ω) : Prop where
  owner : ∀ k k' d, d ∈ E.owns k → d ∈ E.owns k' → k = k'
  unsold : ∀ k d, d ∈ E.owns k → d ∉ E.shelf

/-- What somebody owns after a move. -/
theorem owns_after (h : d ∈ (E.after T a).owns k) : d ∈ E.owns k ∨ a = .buy k d := by
  have hupdate : ∀ k' s, d ∈ Function.update E.owns k' s k → d ∈ E.owns k ∨ k' = k ∧ d ∈ s := by
    intro k' s hd
    by_cases hk : k = k'
    · subst hk
      rw [Function.update_self] at hd
      exact .inr ⟨rfl, hd⟩
    · rw [Function.update_of_ne hk] at hd
      exact .inl hd
  cases a with
  | buy k' e =>
    rcases hupdate k' _ h with hold | ⟨rfl, hd⟩
    · exact .inl hold
    · rcases Set.mem_insert_iff.1 hd with rfl | hold
      · exact .inr rfl
      · exact .inl hold
  | sell k' i o ds | discard k' e =>
    rcases hupdate k' _ h with hold | ⟨rfl, hd⟩
    · exact .inl hold
    · exact .inl hd.1
  | _ => exact .inl h

/-- What is for sale after a move. -/
theorem shelf_after (h : d ∈ (E.after T a).shelf) : d ∈ E.shelf ∨ a = .offer d := by
  cases a with
  | offer e =>
    rcases Set.mem_insert_iff.1 h with rfl | hold
    · exact .inr rfl
    · exact .inl hold
  | expire ds | buy k e => exact .inl h.1
  | _ => exact .inl h

theorem Exclusive.after (hE : E.Exclusive) (ha : a.Allowed T E) : (E.after T a).Exclusive where
  owner k k' d h h' := by
    rcases owns_after h with hold | rfl
    · rcases owns_after h' with hold' | rfl
      · exact hE.owner k k' d hold hold'
      · exact absurd ha.1 (hE.unsold k d hold)
    · rcases owns_after h' with hold' | heq
      · exact absurd ha.1 (hE.unsold k' d hold')
      · cases heq
        rfl
  unsold k d h hshelf := by
    rcases owns_after h with hold | rfl
    · rcases shelf_after hshelf with hd | rfl
      · exact hE.unsold k d hold hd
      · exact ha.2 k hold
    · exact hshelf.2 rfl

/-- **Nothing has two owners**, after any run. -/
theorem Makes.exclusive (h : E.Makes T as E') (hE : E.Exclusive) : E'.Exclusive :=
  h.invariant hE fun _ _ ha hE => hE.after ha

/-- **What somebody owns** was owned at the start, or bought. -/
theorem owned_of_makes (h : E.Makes T as E') (hd : d ∈ E'.owns k) :
    d ∈ E.owns k ∨ .buy k d ∈ as := by
  induction h with
  | nil => exact .inl hd
  | deal _ _ ih =>
    rcases owns_after hd with hold | rfl
    · exact (ih hold).imp_right (List.mem_append_left _)
    · exact .inr (List.mem_append_right _ (List.mem_singleton_self _))

/-- What is for sale was so at the start, or has been offered. -/
theorem offered_of_makes (h : E.Makes T as E') (hd : d ∈ E'.shelf) :
    d ∈ E.shelf ∨ .offer d ∈ as := by
  induction h with
  | nil => exact .inl hd
  | deal _ _ ih =>
    rcases shelf_after hd with hold | rfl
    · exact (ih hold).imp_right (List.mem_append_left _)
    · exact .inr (List.mem_append_right _ (List.mem_singleton_self _))

/-- **What is bought twice** was offered in between. -/
theorem offer_between (h : E.Makes T (as ++ .buy k d :: bs ++ [.buy k' d]) E') :
    .offer d ∈ bs := by
  obtain ⟨E₁, h, ⟨hshelf, -⟩, -⟩ := makes_concat.1 h
  obtain ⟨E₂, -, h⟩ := makes_append.1 h
  obtain ⟨-, h⟩ := makes_cons.1 h
  rcases offered_of_makes h hshelf with hd | hoffer
  · exact absurd rfl hd.2
  · exact hoffer

/-! ### Orders -/

/-- The order in a place after a move. -/
theorem board_after {o : ω} (h : (E.after T a).board i = some o) :
    E.board i = some o ∨ a = .post i o := by
  cases a with
  | post j o' =>
    by_cases hi : i = j
    · subst hi
      have ho : some o' = some o := (Function.update_self i _ E.board).symm.trans h
      cases ho
      exact .inr rfl
    · exact .inl ((Function.update_of_ne hi _ E.board).symm.trans h)
  | sell k j o' ds =>
    by_cases hi : i = j
    · subst hi
      have ho : none = some o := (Function.update_self i _ E.board).symm.trans h
      cases ho
    · exact .inl ((Function.update_of_ne hi _ E.board).symm.trans h)
  | withdraw is =>
    have ho : (if i ∈ is then none else E.board i) = some o := h
    split_ifs at ho
    exact .inl ho
  | _ => exact .inl h

theorem posted_of_makes {o : ω} (h : E.Makes T as E') (ho : E'.board i = some o) :
    E.board i = some o ∨ .post i o ∈ as := by
  induction h with
  | nil => exact .inl ho
  | deal _ _ ih =>
    rcases board_after ho with hold | rfl
    · exact (ih hold).imp_right (List.mem_append_left _)
    · exact .inr (List.mem_append_right _ (List.mem_singleton_self _))

/-- **An order that is filled twice** was posted in between. -/
theorem post_between {o o' : ω} {ds ds' : List δ}
    (h : E.Makes T (as ++ .sell k i o ds :: bs ++ [.sell k' i o' ds']) E') : .post i o' ∈ bs := by
  obtain ⟨E₁, h, ⟨hboard, -⟩, -⟩ := makes_concat.1 h
  obtain ⟨E₂, -, h⟩ := makes_append.1 h
  obtain ⟨-, h⟩ := makes_cons.1 h
  rcases posted_of_makes h hboard with ho | hpost
  · have hnone : (E₂.after T (.sell k i o ds)).board i = none := Function.update_self i _ E₂.board
    rw [hnone] at ho
    cases ho
  · exact hpost

/-! ### Purses -/

/-- Every order pays, and nobody but the ruined has less than nothing. -/
structure Solid (T : Terms δ ω) (E : Exchange κ δ ι ω) : Prop where
  paying : ∀ i o, E.board i = some o → 0 < T.reward o
  purse : ∀ k x, E.purse k = some x → x = T.ruined ∨ 0 ≤ x

theorem Solid.after (hT : -1 ≤ T.ruined) (hE : E.Solid T) (ha : a.Allowed T E) :
    (E.after T a).Solid T where
  paying i o h := by
    rcases board_after h with hold | rfl
    · exact hE.paying i o hold
    · exact ha.2
  purse k x h := by
    have hupdate : ∀ k' y, Function.update E.purse k' y k = some x →
        (∀ z, y = some z → z = T.ruined ∨ 0 ≤ z) → x = T.ruined ∨ 0 ≤ x := by
      intro k' y hx hy
      by_cases hk : k = k'
      · subst hk
        rw [Function.update_self] at hx
        exact hy x hx
      · rw [Function.update_of_ne hk] at hx
        exact hE.purse k x hx
    cases a with
    | buy k' d =>
      obtain ⟨-, y, hy, hle⟩ := ha
      refine hupdate k' _ h fun z hz => .inr ?_
      rw [hy] at hz
      cases hz
      exact sub_nonneg.2 hle
    | sell k' i o ds =>
      obtain ⟨hboard, -, -, -⟩ := ha
      refine hupdate k' _ h fun z hz => ?_
      obtain ⟨y, hy, rfl⟩ := Option.map_eq_some_iff.1 hz
      have hpos := hE.paying i o hboard
      rcases hE.purse k' y hy with rfl | hle
      · exact .inr (by omega)
      · exact .inr (by omega)
    | join k' y | assign k' y =>
      refine hupdate k' _ h fun z hz => .inr ?_
      cases hz
      exact ha.2
    | pay k' y =>
      obtain ⟨-, z, hz, hle⟩ := ha
      refine hupdate k' _ h fun w hw => .inr ?_
      rw [hz] at hw
      cases hw
      exact sub_nonneg.2 hle
    | ruin k' =>
      refine hupdate k' _ h fun z hz => .inl ?_
      cases hz
      rfl
    | _ => exact hE.purse k x h

/-- **Nobody is in debt**, after any run. -/
theorem Makes.solid (hT : -1 ≤ T.ruined) (h : E.Makes T as E') (hE : E.Solid T) : E'.Solid T :=
  h.invariant hE fun _ _ ha hE => hE.after hT ha

end

end Exchange

end UnderFlow
