import Mathlib.Data.Set.Insert
import Mathlib.Data.List.Nodup
import Mathlib.Logic.Function.Basic
import UnderFlow.LTS.Run

/-!
# Bulletins

A board of items is changed by clerks under a lock; what has changed is announced afterwards, item
by item, to everybody who listens.  A subscriber that comes late is sent the items of a snapshot of
the board, one by one, while announcements reach it already.

* `Exclusive f` : no name is held twice; `f` says which names a clerk holds.
* `Orderly` : no notice of an item precedes its showing.
* `Bulletin` : the board, what every clerk has in hand, and what every subscriber has been told.
* `Bulletin.Step` : what a clerk may do, and when.
* `Bulletin.Inv.step` : the invariant is kept.
* `Bulletin.Inv.current` : when no clerk has an item in hand, what a subscriber was shown and not
  told to remove is on the board.
-/

namespace UnderFlow

/-! ### Names held once -/

section Exclusive

variable {θ κ α : Type*}

/-- No name is held twice; `f` says which names are held where. -/
structure Exclusive (f : θ → List κ) : Prop where
  nodup : ∀ t, (f t).Nodup
  unique : ∀ t u x, x ∈ f t → x ∈ f u → t = u

variable [DecidableEq θ] {k : θ → α} {a : α} {f : α → List κ} {t : θ}

/-- What one holds is exchanged for names of its own, and names that nobody holds. -/
theorem Exclusive.update (h : Exclusive fun u => f (k u)) (hnd : (f a).Nodup)
    (hx : ∀ x ∈ f a, x ∈ f (k t) ∨ ∀ u, x ∉ f (k u)) :
    Exclusive fun u => f (Function.update k t a u) := by
  have hone : ∀ u x, u ≠ t → x ∈ f (k u) → x ∉ f a := by
    intro u x hu hxu hxa
    rcases hx x hxa with hold | hno
    · exact hu (h.unique u t x hxu hold)
    · exact hno u hxu
  refine ⟨fun u => ?_, fun u v x hxu hxv => ?_⟩
  · by_cases hu : u = t
    · subst hu
      simpa using hnd
    · simpa [hu] using h.nodup u
  · by_cases hu : u = t <;> by_cases hv : v = t
    · exact hu.trans hv.symm
    · subst hu
      simp only [Function.update_self, Function.update_of_ne hv] at hxu hxv
      exact absurd hxu (hone v x hv hxv)
    · subst hv
      simp only [Function.update_self, Function.update_of_ne hu] at hxu hxv
      exact absurd hxv (hone u x hu hxu)
    · simp only [Function.update_of_ne hu, Function.update_of_ne hv] at hxu hxv
      exact h.unique u v x hxu hxv

/-- Names are given up. -/
theorem Exclusive.shrink (h : Exclusive fun u => f (k u)) (hs : (f a).Sublist (f (k t))) :
    Exclusive fun u => f (Function.update k t a u) :=
  h.update ((h.nodup t).sublist hs) fun _ hx => .inl (hs.subset hx)

end Exclusive

/-! ### Notices -/

variable {ι σ θ : Type*}

/-- What a subscriber is told about an item. -/
inductive Notice (ι : Type*) where
  | shown (d : ι)
  | removed (d : ι)
  deriving DecidableEq

/-- The item a notice is about. -/
def Notice.item : Notice ι → ι
  | shown d | removed d => d

/-- No notice of an item precedes its showing. -/
def Orderly : List (Notice ι) → Prop :=
  Along fun before n => ∀ d, n = .shown d → ∀ m ∈ before, m.item ≠ d

theorem orderly_nil : Orderly ([] : List (Notice ι)) := along_nil

theorem Orderly.concat {l : List (Notice ι)} {n : Notice ι} (h : Orderly l)
    (hn : ∀ d, n = .shown d → ∀ m ∈ l, m.item ≠ d) : Orderly (l ++ [n]) := by
  refine Along.append h fun pre e post he d hd => ?_
  obtain ⟨rfl, rfl⟩ : pre = [] ∧ e = n := by
    cases pre with
    | nil => exact ⟨rfl, (List.cons.inj he).1.symm⟩
    | cons f pre => simp at he
  simpa using hn d hd

/-! ### Bulletins -/

/-- What a clerk has in hand. -/
structure Clerk (ι σ : Type*) where
  /-- Items that are not on the board yet. -/
  making : List ι := []
  /-- Items it has put on the board and not announced. -/
  announcing : List ι := []
  /-- Items it has taken off the board; their removal is not announced. -/
  removing : List ι := []
  /-- Subscribers that wait for their snapshot. -/
  greeting : List σ := []
  /-- What is left to be sent of snapshots. -/
  sending : List (σ × ι) := []
  deriving DecidableEq

/-- The items a clerk has, and the board has not. -/
def Clerk.holds (k : Clerk ι σ) : List ι := k.making ++ k.removing

/-- The board, its clerks, its subscribers, and what these have been told. -/
@[ext] structure Bulletin (ι σ θ : Type*) where
  /-- The items known so far. -/
  used : Set ι
  /-- The items on the board. -/
  active : Set ι
  /-- What each clerk has in hand. -/
  clerk : θ → Clerk ι σ
  /-- The subscribers every announcement reaches. -/
  listening : Set σ
  /-- What a subscriber has been told. -/
  told : σ → List (Notice ι)

namespace Bulletin

variable (B : Bulletin ι σ θ)

/-- Some clerk has it in hand. -/
def Has {κ : Type*} (f : Clerk ι σ → List κ) (x : κ) : Prop := ∃ t, x ∈ f (B.clerk t)

/-- A clerk is putting the item up. -/
abbrev Making (d : ι) : Prop := B.Has Clerk.making d

/-- A clerk has taken the item down and not said so yet. -/
abbrev Leaving (d : ι) : Prop := B.Has Clerk.removing d

/-- A clerk is about to announce the item. -/
abbrev Announcing (d : ι) : Prop := B.Has Clerk.announcing d

/-- A clerk is greeting the subscriber. -/
abbrev Greeting (x : σ) : Prop := B.Has Clerk.greeting x

/-- A clerk still owes the subscriber the item. -/
abbrev Pending (x : σ) (d : ι) : Prop := B.Has Clerk.sending (x, d)

/-- The item is on the board, or its removal is still to be announced. -/
def Stands (d : ι) : Prop := d ∈ B.active ∨ B.Leaving d

/-- The invariant of a bulletin. -/
structure Inv : Prop where
  held : Exclusive fun t => (B.clerk t).holds
  news : Exclusive fun t => (B.clerk t).announcing
  greeters : Exclusive fun t => (B.clerk t).greeting
  lines : Exclusive fun t => (B.clerk t).sending
  apart : ∀ d ∈ B.active, ∀ t, d ∉ (B.clerk t).holds
  used : ∀ d, B.Making d ∨ B.Stands d ∨ (∃ x, ∃ n ∈ B.told x, n.item = d) → d ∈ B.used
  unlisted : ∀ d, B.Making d → ∀ x, ∀ n ∈ B.told x, n.item ≠ d
  standing : ∀ d, B.Stands d → ∀ x, .removed d ∉ B.told x
  announcing : ∀ d, B.Announcing d → B.Stands d ∧ ∀ x, ¬ B.Pending x d ∧ .shown d ∉ B.told x
  pending : ∀ x d, B.Pending x d → B.Stands d ∧ .shown d ∉ B.told x
  greeting : ∀ x, B.Greeting x → ∀ d, ¬ B.Pending x d ∧ .shown d ∉ B.told x
  orderly : ∀ x, Orderly (B.told x)
  alive : ∀ x ∈ B.listening, ∀ d, .shown d ∈ B.told x → .removed d ∉ B.told x → B.Stands d

/-! ### Telling -/

open Classical in
/-- The bulletin after a notice to some subscribers. -/
noncomputable def tell (hearers : Set σ) (n : Notice ι) : Bulletin ι σ θ :=
  { B with told := fun x => if x ∈ hearers then B.told x ++ [n] else B.told x }

open Classical in
/-- The bulletin with a subscriber that starts anew. -/
noncomputable def restart (x : σ) : Bulletin ι σ θ :=
  { B with told := fun y => if y = x then [] else B.told y }

variable {B} {B' : Bulletin ι σ θ} {d e : ι} {x y : σ} {t : θ} {hearers : Set σ} {n m : Notice ι}

theorem mem_tell : m ∈ (B.tell hearers n).told x ↔ m ∈ B.told x ∨ (x ∈ hearers ∧ m = n) := by
  simp only [tell]
  split_ifs with hx <;> simp [hx]

theorem mem_restart : m ∈ (B.restart x).told y ↔ y ≠ x ∧ m ∈ B.told y := by
  simp only [restart]
  by_cases hy : y = x <;> simp [hy]

theorem mem_holds {k : Clerk ι σ} : d ∈ k.holds ↔ d ∈ k.making ∨ d ∈ k.removing := List.mem_append

theorem Inv.not_holds_of_fresh (h : B.Inv) (hd : d ∉ B.used) (u : θ) : d ∉ (B.clerk u).holds := by
  intro hmem
  rcases mem_holds.1 hmem with hm | hr
  · exact hd (h.used d (.inl ⟨u, hm⟩))
  · exact hd (h.used d (.inr (.inl (.inr ⟨u, hr⟩))))

theorem Inv.not_stands (h : B.Inv) (hd : B.Making d) : ¬ B.Stands d := by
  obtain ⟨t, ht⟩ := hd
  rintro (hact | ⟨u, hu⟩)
  · exact h.apart d hact t (List.mem_append_left _ ht)
  · obtain rfl := h.held.unique t u d (List.mem_append_left _ ht) (List.mem_append_right _ hu)
    exact (List.nodup_append.1 (h.held.nodup t)).2.2 d ht d hu rfl

/-- The clerk that puts an item on the board does not have it any more, and nobody else had it. -/
theorem Inv.apart_insert {k : Clerk ι σ} (h : B.Inv) (hsub : ∀ e ∈ k.holds, e ∈ (B.clerk t).holds)
    (hd : d ∈ (B.clerk t).holds) (hno : d ∉ k.holds) :
    ∀ e ∈ insert d B.active, e ∉ k.holds ∧ ∀ u, u ≠ t → e ∉ (B.clerk u).holds := by
  rintro e (rfl | he)
  · exact ⟨hno, fun u hut hmem => hut (h.held.unique u t e hmem hd)⟩
  · exact ⟨fun hmem => h.apart e he t (hsub e hmem), fun u _ => h.apart e he u⟩

/-- **A change that tells nobody anything**: items are made and listed, taken and put back,
snapshots are asked for and taken. -/
theorem Inv.change (h : B.Inv) (held : Exclusive fun t => (B'.clerk t).holds)
    (news : Exclusive fun t => (B'.clerk t).announcing)
    (greeters : Exclusive fun t => (B'.clerk t).greeting)
    (lines : Exclusive fun t => (B'.clerk t).sending)
    (apart : ∀ d ∈ B'.active, ∀ t, d ∉ (B'.clerk t).holds)
    (told : B'.told = B.told) (used : B.used ⊆ B'.used)
    (making : ∀ d, B'.Making d → B.Making d ∨ (d ∉ B.used ∧ d ∈ B'.used))
    (stands : ∀ d, B.Stands d → B'.Stands d)
    (listed : ∀ d, B'.Stands d → B.Stands d ∨ B.Making d)
    (announcing : ∀ d, B'.Announcing d → B.Announcing d ∨ (B.Making d ∧ B'.Stands d))
    (pending : ∀ x d, B'.Pending x d → B.Pending x d ∨
      (B.Greeting x ∧ ¬ B'.Greeting x ∧ B.Stands d ∧ ¬ B.Announcing d))
    (greeting : ∀ x, B'.Greeting x →
      B.Greeting x ∨ (B.told x = [] ∧ ∀ d, ¬ B'.Pending x d))
    (listening : ∀ x ∈ B'.listening, x ∈ B.listening ∨ B.told x = []) : B'.Inv where
  held := held
  news := news
  greeters := greeters
  lines := lines
  apart := apart
  used d hd := by
    rw [told] at hd
    rcases hd with hm | hs | ht
    · rcases making d hm with hm | ⟨-, hnew⟩
      · exact used (h.used d (.inl hm))
      · exact hnew
    · rcases listed d hs with hs | hm
      · exact used (h.used d (.inr (.inl hs)))
      · exact used (h.used d (.inl hm))
    · exact used (h.used d (.inr (.inr ht)))
  unlisted d hd x n hn hnd := by
    rw [told] at hn
    rcases making d hd with hm | ⟨hno, -⟩
    · exact h.unlisted d hm x n hn hnd
    · exact hno (h.used d (.inr (.inr ⟨x, n, hn, hnd⟩)))
  standing d hd x hx := by
    rw [told] at hx
    rcases listed d hd with hs | hm
    · exact h.standing d hs x hx
    · exact h.unlisted d hm x _ hx rfl
  announcing d hd := by
    rw [told]
    rcases announcing d hd with ha | ⟨hm, hs⟩
    · refine ⟨stands d (h.announcing d ha).1, fun x => ⟨fun hp => ?_, ((h.announcing d ha).2 x).2⟩⟩
      rcases pending x d hp with hp | ⟨-, -, -, hno⟩
      · exact ((h.announcing d ha).2 x).1 hp
      · exact hno ha
    · refine ⟨hs, fun x => ⟨fun hp => h.not_stands hm ?_, fun hx => h.unlisted d hm x _ hx rfl⟩⟩
      rcases pending x d hp with hp | ⟨-, -, hs, -⟩
      · exact (h.pending x d hp).1
      · exact hs
  pending x d hp := by
    rw [told]
    rcases pending x d hp with hp | ⟨hg, -, hs, -⟩
    · exact ⟨stands d (h.pending x d hp).1, (h.pending x d hp).2⟩
    · exact ⟨stands d hs, (h.greeting x hg d).2⟩
  greeting x hg d := by
    rw [told]
    rcases greeting x hg with hold | ⟨hnil, hno⟩
    · refine ⟨fun hp => ?_, (h.greeting x hold d).2⟩
      rcases pending x d hp with hp | ⟨-, hng, -, -⟩
      · exact (h.greeting x hold d).1 hp
      · exact hng hg
    · exact ⟨hno d, by simp [hnil]⟩
  orderly x := by
    rw [told]
    exact h.orderly x
  alive x hx d hs hr := by
    rw [told] at hs hr
    rcases listening x hx with hx | hnil
    · exact stands d (h.alive x hx d hs hr)
    · rw [hnil] at hs
      cases hs

theorem Inv.quit {L : Set σ} (h : B.Inv) (hL : L ⊆ B.listening) :
    Inv { B with listening := L } :=
  h.change h.held h.news h.greeters h.lines h.apart rfl (Set.Subset.refl _) (fun _ he => .inl he)
    (fun _ => id) (fun _ he => .inl he) (fun _ he => .inl he) (fun _ _ he => .inl he)
    (fun _ hy => .inl hy) fun _ hy => .inl (hL hy)

/-- An item that stands is shown to subscribers that were not shown it. -/
theorem Inv.tell_shown (h : B.Inv) (hs : B.Stands d) (hn : ¬ B.Announcing d)
    (hx : ∀ x ∈ hearers, .shown d ∉ B.told x ∧ ¬ B.Pending x d ∧ ¬ B.Greeting x) :
    (B.tell hearers (.shown d)).Inv where
  held := h.held
  news := h.news
  greeters := h.greeters
  lines := h.lines
  apart := h.apart
  used e he := by
    rcases he with hm | hst | ⟨x, n, hn, hne⟩
    · exact h.used e (.inl hm)
    · exact h.used e (.inr (.inl hst))
    · rcases mem_tell.1 hn with hold | ⟨-, rfl⟩
      · exact h.used e (.inr (.inr ⟨x, n, hold, hne⟩))
      · obtain rfl : d = e := hne
        exact h.used d (.inr (.inl hs))
  unlisted e he x n hn hne := by
    rcases mem_tell.1 hn with hold | ⟨-, rfl⟩
    · exact h.unlisted e he x n hold hne
    · obtain rfl : d = e := hne
      exact h.not_stands he hs
  standing e he x hr := by
    rcases mem_tell.1 hr with hold | ⟨-, heq⟩
    · exact h.standing e he x hold
    · cases heq
  announcing e he := by
    refine ⟨(h.announcing e he).1, fun x => ⟨((h.announcing e he).2 x).1, fun hsh => ?_⟩⟩
    rcases mem_tell.1 hsh with hold | ⟨-, heq⟩
    · exact ((h.announcing e he).2 x).2 hold
    · cases heq
      exact hn he
  pending x e hp := by
    refine ⟨(h.pending x e hp).1, fun hsh => ?_⟩
    rcases mem_tell.1 hsh with hold | ⟨hxh, heq⟩
    · exact (h.pending x e hp).2 hold
    · cases heq
      exact (hx x hxh).2.1 hp
  greeting x hg e := by
    refine ⟨(h.greeting x hg e).1, fun hsh => ?_⟩
    rcases mem_tell.1 hsh with hold | ⟨hxh, -⟩
    · exact (h.greeting x hg e).2 hold
    · exact (hx x hxh).2.2 hg
  orderly x := by
    simp only [tell]
    split_ifs with hxh
    · refine (h.orderly x).concat fun e heq m hm hme => ?_
      cases heq
      -- an item that stands was not removed, and this one was not shown
      cases m with
      | shown e =>
        obtain rfl : e = d := hme
        exact (hx x hxh).1 hm
      | removed e =>
        obtain rfl : e = d := hme
        exact h.standing e hs x hm
    · exact h.orderly x
  alive x hxl e hsh hr := by
    rcases mem_tell.1 hsh with hold | ⟨-, heq⟩
    · exact h.alive x hxl e hold fun hrem => hr (mem_tell.2 (.inl hrem))
    · cases heq
      exact hs

/-- What a subscriber was told is forgotten. -/
theorem Inv.restart (h : B.Inv) (x : σ) : (B.restart x).Inv where
  held := h.held
  news := h.news
  greeters := h.greeters
  lines := h.lines
  apart := h.apart
  used e he := h.used e <| he.imp_right fun he => he.imp_right fun ⟨y, n, hn, hne⟩ =>
    ⟨y, n, (mem_restart.1 hn).2, hne⟩
  unlisted e he y n hn := h.unlisted e he y n (mem_restart.1 hn).2
  standing e he y hr := h.standing e he y (mem_restart.1 hr).2
  announcing e he := ⟨(h.announcing e he).1, fun y =>
    ⟨((h.announcing e he).2 y).1, fun hs => ((h.announcing e he).2 y).2 (mem_restart.1 hs).2⟩⟩
  pending y e hp := ⟨(h.pending y e hp).1, fun hs => (h.pending y e hp).2 (mem_restart.1 hs).2⟩
  greeting y hg e := ⟨(h.greeting y hg e).1, fun hs => (h.greeting y hg e).2 (mem_restart.1 hs).2⟩
  orderly y := by
    simp only [Bulletin.restart]
    split_ifs
    · exact orderly_nil
    · exact h.orderly y
  alive y hy e hs hr := by
    obtain ⟨hyx, hs⟩ := mem_restart.1 hs
    exact h.alive y hy e hs fun hrem => hr (mem_restart.2 ⟨hyx, hrem⟩)

/-- **When nothing is left to be announced**, a subscriber was shown no item that is not on the
board, unless it was told to remove it. -/
theorem Inv.current (h : B.Inv) (hx : x ∈ B.listening) (hrest : ∀ t, (B.clerk t).removing = [])
    (hs : .shown d ∈ B.told x) (hr : .removed d ∉ B.told x) : d ∈ B.active := by
  rcases h.alive x hx d hs hr with hact | ⟨t, ht⟩
  · exact hact
  · rw [hrest t] at ht
    cases ht

/-! ### What a clerk may do -/

variable [DecidableEq θ]

variable (B) in
/-- The bulletin with other things in the hand of a clerk. -/
def hand (t : θ) (k : Clerk ι σ) : Bulletin ι σ θ :=
  { B with clerk := Function.update B.clerk t k }

variable (B) in
/-- What the clerk `t` may do, and when. -/
inductive Step (t : θ) : Bulletin ι σ θ → Prop
  /-- Nothing is changed; subscribers may quit. -/
  | quit (L : Set σ) : L ⊆ B.listening → Step t { B with listening := L }
  /-- A new item is made. -/
  | allot (d : ι) : d ∉ B.used →
      Step t { B.hand t { B.clerk t with making := d :: (B.clerk t).making } with
        used := insert d B.used }
  /-- Items are given up before they are listed. -/
  | drop (ids : List ι) : ids.Sublist (B.clerk t).making →
      Step t (B.hand t { B.clerk t with making := ids })
  /-- An item is listed and not announced. -/
  | place (d : ι) (ids : List ι) : (B.clerk t).making = d :: ids →
      Step t { B.hand t { B.clerk t with making := ids } with active := insert d B.active }
  /-- An item is listed, and is going to be announced. -/
  | list (d : ι) (ids : List ι) : (B.clerk t).making = d :: ids →
      Step t { B.hand t { B.clerk t with
          making := ids
          announcing := d :: (B.clerk t).announcing } with
        active := insert d B.active }
  /-- Items are taken off the board. -/
  | take (ids : List ι) : ids.Nodup → (∀ d ∈ ids, d ∈ B.active) →
      Step t { B.hand t { B.clerk t with removing := ids ++ (B.clerk t).removing } with
        active := B.active \ {d | d ∈ ids} }
  /-- An item is put back. -/
  | relist (d : ι) (ids : List ι) : (B.clerk t).removing = d :: ids →
      Step t { B.hand t { B.clerk t with removing := ids } with active := insert d B.active }
  /-- The showing of an item is announced: nobody may wait for a snapshot. -/
  | announce (d : ι) (ids : List ι) (hearers : Set σ) : (B.clerk t).announcing = d :: ids →
      B.listening ⊆ hearers → (∀ x, ¬ B.Greeting x) →
      Step t ((B.hand t { B.clerk t with announcing := ids }).tell hearers (.shown d))
  /-- The removal of an item is announced: nobody may still be going to show it. -/
  | retract (d : ι) (ids : List ι) (hearers : Set σ) : (B.clerk t).removing = d :: ids →
      B.listening ⊆ hearers → ¬ B.Announcing d → (∀ x, ¬ B.Pending x d) →
      Step t ((B.hand t { B.clerk t with removing := ids }).tell hearers (.removed d))
  /-- A subscriber is gone; what it was told is forgotten. -/
  | restart (x : σ) : Step t (B.restart x)
  /-- A subscriber starts anew, and waits for its snapshot. -/
  | greet (x : σ) : ¬ B.Greeting x → (∀ d, ¬ B.Pending x d) →
      Step t { (B.hand t { B.clerk t with greeting := x :: (B.clerk t).greeting }).restart x with
        listening := insert x B.listening }
  /-- A snapshot is taken: none of its items may still be going to be announced. -/
  | snapshot (x : σ) (xs : List σ) (ids : List ι) : (B.clerk t).greeting = x :: xs → ids.Nodup →
      (∀ d ∈ ids, d ∈ B.active ∧ ¬ B.Announcing d) →
      Step t (B.hand t { B.clerk t with
        greeting := xs
        sending := ids.map (Prod.mk x) ++ (B.clerk t).sending })
  /-- An item of its snapshot is sent to a subscriber. -/
  | send (x : σ) (d : ι) (todo : List (σ × ι)) : (B.clerk t).sending = (x, d) :: todo →
      Step t ((B.hand t { B.clerk t with sending := todo }).tell {x} (.shown d))

/-! ### The invariant is kept -/

section Hand

variable {κ : Type*} {f : Clerk ι σ → List κ} {z : κ} {k : Clerk ι σ}

theorem has_update (hc : B'.clerk = Function.update B.clerk t k) :
    B'.Has f z ↔ z ∈ f k ∨ ∃ u, u ≠ t ∧ z ∈ f (B.clerk u) := by
  rw [Has, hc]
  constructor
  · rintro ⟨u, hu⟩
    by_cases hut : u = t
    · subst hut
      exact .inl (by simpa using hu)
    · exact .inr ⟨u, hut, by simpa [hut] using hu⟩
  · rintro (hk | ⟨u, hut, hu⟩)
    · exact ⟨t, by simpa using hk⟩
    · exact ⟨u, by simpa [hut] using hu⟩

/-- What did not change in the hand of one clerk did not change. -/
theorem has_same (hc : B'.clerk = Function.update B.clerk t k) (hk : f k = f (B.clerk t)) :
    B'.Has f z ↔ B.Has f z := by
  rw [has_update hc, hk]
  constructor
  · rintro (ht | ⟨u, -, hu⟩)
    · exact ⟨t, ht⟩
    · exact ⟨u, hu⟩
  · rintro ⟨u, hu⟩
    by_cases hut : u = t
    · exact .inl (hut ▸ hu)
    · exact .inr ⟨u, hut, hu⟩

end Hand

/-- Items change hands: they are made, listed, taken off the board or put back. -/
theorem Inv.items (h : B.Inv) {k : Clerk ι σ} {U A : Set ι} (nodup : k.holds.Nodup)
    (mem : ∀ d ∈ k.holds, d ∈ (B.clerk t).holds ∨ ∀ u, d ∉ (B.clerk u).holds)
    (apart : ∀ d ∈ A, d ∉ k.holds ∧ ∀ u, u ≠ t → d ∉ (B.clerk u).holds) (used : B.used ⊆ U)
    (making : ∀ d ∈ k.making, d ∈ (B.clerk t).making ∨ (d ∉ B.used ∧ d ∈ U))
    (stands : ∀ d, d ∈ B.active ∨ d ∈ (B.clerk t).removing → d ∈ A ∨ d ∈ k.removing)
    (listed : ∀ d, d ∈ A ∨ d ∈ k.removing → B.Stands d ∨ d ∈ (B.clerk t).making)
    (news : k.announcing.Nodup)
    (announcing : ∀ d ∈ k.announcing, d ∈ (B.clerk t).announcing ∨
      (d ∈ (B.clerk t).making ∧ d ∈ A))
    (greeting : k.greeting = (B.clerk t).greeting) (sending : k.sending = (B.clerk t).sending) :
    Inv { B.hand t k with used := U, active := A } := by
  have hc : (B.hand t k).clerk = Function.update B.clerk t k := rfl
  refine h.change (h.held.update nodup mem) (h.news.update news fun d hd => ?_)
    (h.greeters.shrink (greeting ▸ .refl _)) (h.lines.shrink (sending ▸ .refl _)) ?_ rfl used
    (fun d hd => ?_) (fun d hd => ?_) (fun d hd => ?_) (fun d hd => ?_) (fun x d hd => ?_)
    (fun x hx => ?_) fun x hx => .inl hx
  · refine (announcing d hd).imp_right fun hm u hu => ?_
    exact h.not_stands ⟨t, hm.1⟩ (h.announcing d ⟨u, hu⟩).1
  · intro d hd u
    show d ∉ (Function.update B.clerk t k u).holds
    by_cases hut : u = t
    · subst hut
      simpa using (apart d hd).1
    · simpa [hut] using (apart d hd).2 u hut
  · rcases (has_update (f := Clerk.making) hc).1 hd with hd | ⟨u, -, hd⟩
    · exact (making d hd).imp_left fun hm => ⟨t, hm⟩
    · exact .inl ⟨u, hd⟩
  · rcases hd with hd | ⟨u, hd⟩
    · exact (stands d (.inl hd)).imp_right fun hr => (has_update hc).2 (.inl hr)
    · by_cases hut : u = t
      · subst hut
        exact (stands d (.inr hd)).imp_right fun hr => (has_update hc).2 (.inl hr)
      · exact .inr ((has_update hc).2 (.inr ⟨u, hut, hd⟩))
  · rcases hd with hd | hd
    · exact (listed d (.inl hd)).imp_right fun hm => ⟨t, hm⟩
    · rcases (has_update (f := Clerk.removing) hc).1 hd with hd | ⟨u, -, hd⟩
      · exact (listed d (.inr hd)).imp_right fun hm => ⟨t, hm⟩
      · exact .inl (.inr ⟨u, hd⟩)
  · rcases (has_update (f := Clerk.announcing) hc).1 hd with hd | ⟨u, -, hd⟩
    · rcases announcing d hd with hold | ⟨hm, hA⟩
      · exact .inl ⟨t, hold⟩
      · exact .inr ⟨⟨t, hm⟩, .inl hA⟩
    · exact .inl ⟨u, hd⟩
  · exact .inl ((has_same (f := Clerk.sending) hc sending).1 hd)
  · exact .inl ((has_same (f := Clerk.greeting) hc greeting).1 hx)

theorem Inv.allot (h : B.Inv) (hd : d ∉ B.used) :
    Inv { B.hand t { B.clerk t with making := d :: (B.clerk t).making } with
      used := insert d B.used } := by
  have hfresh := h.not_holds_of_fresh hd
  refine h.items ?_ ?_ (fun e he => ⟨?_, fun u _ => h.apart e he u⟩) (Set.subset_insert d _) ?_
    (fun e => id) (fun e he => .inl (he.imp_right fun hr => ⟨t, hr⟩)) (h.news.nodup t)
    (fun e he => .inl he) rfl rfl
  · exact List.nodup_cons.2 ⟨hfresh t, h.held.nodup t⟩
  · intro e he
    rcases List.mem_cons.1 (show e ∈ d :: (B.clerk t).holds from he) with rfl | he
    · exact .inr hfresh
    · exact .inl he
  · intro hmem
    rcases List.mem_cons.1 (show e ∈ d :: (B.clerk t).holds from hmem) with rfl | hmem
    · exact hd (h.used e (.inr (.inl (.inl he))))
    · exact h.apart e he t hmem
  · intro e he
    rcases List.mem_cons.1 he with rfl | he
    · exact .inr ⟨hd, Set.mem_insert e _⟩
    · exact .inl he

theorem Inv.drop {ids : List ι} (h : B.Inv) (hs : ids.Sublist (B.clerk t).making) :
    Inv (B.hand t { B.clerk t with making := ids }) := by
  have hsub : (ids ++ (B.clerk t).removing).Sublist (B.clerk t).holds :=
    hs.append_right (B.clerk t).removing
  exact h.items ((h.held.nodup t).sublist hsub) (fun e he => .inl (hsub.subset he))
    (fun e he => ⟨fun hmem => h.apart e he t (hsub.subset hmem), fun u _ => h.apart e he u⟩)
    (Set.Subset.refl _) (fun e he => .inl (hs.subset he)) (fun e => id)
    (fun e he => .inl (he.imp_right fun hr => ⟨t, hr⟩)) (h.news.nodup t)
      (fun e he => .inl he) rfl rfl

theorem Inv.place {ids : List ι} (h : B.Inv) (hk : (B.clerk t).making = d :: ids) :
    Inv { B.hand t { B.clerk t with making := ids } with active := insert d B.active } := by
  have hholds : (B.clerk t).holds = d :: (ids ++ (B.clerk t).removing) := by
    rw [Clerk.holds, hk, List.cons_append]
  have hnd := List.nodup_cons.1 (hholds ▸ h.held.nodup t)
  have hsub : ∀ e ∈ ids ++ (B.clerk t).removing, e ∈ (B.clerk t).holds := by
    intro e he
    rw [hholds]
    exact List.mem_cons_of_mem d he
  refine h.items hnd.2 (fun e he => .inl (hsub e he))
    (h.apart_insert hsub (hholds ▸ List.mem_cons_self) hnd.1) (Set.Subset.refl _) ?_ ?_ ?_
    (h.news.nodup t) (fun e he => .inl he) rfl rfl
  · intro e he
    rw [hk]
    exact .inl (List.mem_cons_of_mem d he)
  · exact fun e he => he.imp_left (Set.mem_insert_of_mem d)
  · rintro e ((rfl | he) | he)
    · exact .inr (hk ▸ List.mem_cons_self)
    · exact .inl (.inl he)
    · exact .inl (.inr ⟨t, he⟩)

theorem Inv.list {ids : List ι} (h : B.Inv) (hk : (B.clerk t).making = d :: ids) :
    Inv { B.hand t { B.clerk t with
        making := ids
        announcing := d :: (B.clerk t).announcing } with
      active := insert d B.active } := by
  have hholds : (B.clerk t).holds = d :: (ids ++ (B.clerk t).removing) := by
    rw [Clerk.holds, hk, List.cons_append]
  have hmaking : d ∈ (B.clerk t).making := hk ▸ List.mem_cons_self
  have hnd := List.nodup_cons.1 (hholds ▸ h.held.nodup t)
  have hsub : ∀ e ∈ ids ++ (B.clerk t).removing, e ∈ (B.clerk t).holds := by
    intro e he
    rw [hholds]
    exact List.mem_cons_of_mem d he
  refine h.items hnd.2 (fun e he => .inl (hsub e he))
    (h.apart_insert hsub (hholds ▸ List.mem_cons_self) hnd.1) (Set.Subset.refl _) ?_ ?_ ?_ ?_ ?_
    rfl rfl
  · intro e he
    rw [hk]
    exact .inl (List.mem_cons_of_mem d he)
  · exact fun e he => he.imp_left (Set.mem_insert_of_mem d)
  · rintro e ((rfl | he) | he)
    · exact .inr hmaking
    · exact .inl (.inl he)
    · exact .inl (.inr ⟨t, he⟩)
  · refine List.nodup_cons.2 ⟨fun hmem => ?_, h.news.nodup t⟩
    exact h.not_stands ⟨t, hmaking⟩ (h.announcing d ⟨t, hmem⟩).1
  · intro e he
    rcases List.mem_cons.1 he with rfl | he
    · exact .inr ⟨hmaking, Set.mem_insert e _⟩
    · exact .inl he

theorem Inv.take {ids : List ι} (h : B.Inv) (hids : ids.Nodup) (hact : ∀ d ∈ ids, d ∈ B.active) :
    Inv { B.hand t { B.clerk t with removing := ids ++ (B.clerk t).removing } with
      active := B.active \ {d | d ∈ ids} } := by
  have hmem : ∀ e, e ∈ (B.clerk t).making ++ (ids ++ (B.clerk t).removing) ↔
      e ∈ (B.clerk t).holds ∨ e ∈ ids := by
    intro e
    simp only [Clerk.holds, List.mem_append]
    rw [or_left_comm, or_comm]
  refine h.items ?_ ?_ ?_ (Set.Subset.refl _) (fun e he => .inl he) ?_ ?_ (h.news.nodup t)
    (fun e he => .inl he) rfl rfl
  · have hperm : ((B.clerk t).making ++ (ids ++ (B.clerk t).removing)).Perm
        (ids ++ (B.clerk t).holds) := List.perm_append_comm_assoc _ _ _
    refine hperm.nodup_iff.2 (List.nodup_append.2 ⟨hids, h.held.nodup t, fun e he e' he' => ?_⟩)
    rintro rfl
    exact h.apart e (hact e he) t he'
  · intro e he
    rcases (hmem e).1 he with he | he
    · exact .inl he
    · exact .inr (h.apart e (hact e he))
  · rintro e ⟨he, hno⟩
    refine ⟨fun hm => ?_, fun u _ => h.apart e he u⟩
    rcases (hmem e).1 hm with hm | hm
    · exact h.apart e he t hm
    · exact hno hm
  · intro e he
    by_cases hmem : e ∈ ids
    · exact .inr (List.mem_append_left _ hmem)
    · exact he.imp (fun he => ⟨he, hmem⟩) (List.mem_append_right _)
  · rintro e (he | he)
    · exact .inl (.inl he.1)
    · rcases List.mem_append.1 he with he | he
      · exact .inl (.inl (hact e he))
      · exact .inl (.inr ⟨t, he⟩)

theorem Inv.relist {ids : List ι} (h : B.Inv) (hk : (B.clerk t).removing = d :: ids) :
    Inv { B.hand t { B.clerk t with removing := ids } with active := insert d B.active } := by
  have hperm : (B.clerk t).holds.Perm (d :: ((B.clerk t).making ++ ids)) := by
    rw [Clerk.holds, hk]
    exact List.perm_middle
  have hnd := List.nodup_cons.1 (hperm.nodup_iff.1 (h.held.nodup t))
  have hsub : ∀ e ∈ (B.clerk t).making ++ ids, e ∈ (B.clerk t).holds :=
    fun e he => hperm.mem_iff.2 (List.mem_cons_of_mem d he)
  refine h.items hnd.2 (fun e he => .inl (hsub e he))
    (h.apart_insert hsub (hperm.mem_iff.2 List.mem_cons_self) hnd.1) (Set.Subset.refl _)
    (fun e he => .inl he) ?_ ?_ (h.news.nodup t) (fun e he => .inl he) rfl rfl
  · intro e he
    rw [hk] at he
    rcases he with he | he
    · exact .inl (Set.mem_insert_of_mem d he)
    · rcases List.mem_cons.1 he with rfl | he
      · exact .inl (Set.mem_insert e _)
      · exact .inr he
  · rintro e ((rfl | he) | he)
    · exact .inl (.inr ⟨t, hk ▸ List.mem_cons_self⟩)
    · exact .inl (.inl he)
    · exact .inl (.inr ⟨t, hk ▸ List.mem_cons_of_mem d he⟩)

/-- Subscribers change hands: they wait for their snapshot, and are served it. -/
theorem Inv.readers (h : B.Inv) {k : Clerk ι σ} {L : Set σ}
    (making : k.making = (B.clerk t).making) (removing : k.removing = (B.clerk t).removing)
    (announcing : k.announcing = (B.clerk t).announcing) (waiting : k.greeting.Nodup)
    (greeting : ∀ y ∈ k.greeting, y ∈ (B.clerk t).greeting ∨
      (¬ B.Greeting y ∧ B.told y = [] ∧ ∀ d, ¬ B.Pending y d))
    (served : k.sending.Nodup)
    (sending : ∀ z ∈ k.sending, z ∈ (B.clerk t).sending ∨ (z.1 ∈ (B.clerk t).greeting ∧
      z.1 ∉ k.greeting ∧ B.Stands z.2 ∧ ¬ B.Announcing z.2))
    (listening : ∀ y ∈ L, y ∈ B.listening ∨ B.told y = []) :
    Inv { B.hand t k with listening := L } := by
  have hc : (B.hand t k).clerk = Function.update B.clerk t k := rfl
  have hholds : k.holds = (B.clerk t).holds := by rw [Clerk.holds, making, removing, Clerk.holds]
  have hpending : ∀ {y e}, (B.hand t k).Pending y e → B.Pending y e ∨ ((y, e) ∈ k.sending ∧
      y ∈ (B.clerk t).greeting ∧ y ∉ k.greeting ∧ B.Stands e ∧ ¬ B.Announcing e) := by
    intro y e he
    rcases (has_update hc).1 he with he | ⟨u, -, he⟩
    · exact (sending _ he).imp (fun hold => ⟨t, hold⟩) fun hnew => ⟨he, hnew⟩
    · exact .inl ⟨u, he⟩
  refine h.change (h.held.shrink (hholds ▸ .refl _)) (h.news.shrink (announcing ▸ .refl _))
    (h.greeters.update waiting fun y hy => ?_) (h.lines.update served fun z hz => ?_) ?_ rfl
    (Set.Subset.refl _) (fun e he => .inl ((has_same hc making).1 he))
    (fun e he => he.imp_right (has_same hc removing).2)
    (fun e he => .inl (he.imp_right (has_same hc removing).1))
    (fun e he => .inl ((has_same hc announcing).1 he)) (fun y e he => ?_) (fun y hy => ?_) listening
  · exact (greeting y hy).imp_right fun hno u hu => hno.1 ⟨u, hu⟩
  · refine (sending z hz).imp_right fun hnew u hu => ?_
    exact (h.greeting z.1 ⟨t, hnew.1⟩ z.2).1 ⟨u, hu⟩
  · intro e he u
    show e ∉ (Function.update B.clerk t k u).holds
    by_cases hut : u = t
    · subst hut
      rw [Function.update_self, hholds]
      exact h.apart e he u
    · rw [Function.update_of_ne hut]
      exact h.apart e he u
  · refine (hpending he).imp_right fun ⟨_, hg, hno, hs, ha⟩ => ⟨⟨t, hg⟩, fun hy => ?_, hs, ha⟩
    rcases (has_update hc).1 hy with hy | ⟨u, hut, hy⟩
    · exact hno hy
    · exact hut (h.greeters.unique u t y hy hg)
  · rcases (has_update (f := Clerk.greeting) hc).1 hy with hy | ⟨u, -, hy⟩
    · refine (greeting y hy).imp (fun hold => ⟨t, hold⟩) fun hnew => ⟨hnew.2.1, fun e he => ?_⟩
      rcases hpending he with he | ⟨-, hg, -⟩
      · exact hnew.2.2 e he
      · exact hnew.1 ⟨t, hg⟩
    · exact .inl ⟨u, hy⟩

theorem Inv.announce {ids : List ι} (h : B.Inv) (hk : (B.clerk t).announcing = d :: ids)
    (hg : ∀ x, ¬ B.Greeting x) :
    Inv ((B.hand t { B.clerk t with announcing := ids }).tell hearers (.shown d)) := by
  have hnd := List.nodup_cons.1 (hk ▸ h.news.nodup t)
  obtain ⟨hs, hx⟩ := h.announcing d ⟨t, hk ▸ List.mem_cons_self⟩
  have hc : (B.hand t { B.clerk t with announcing := ids }).clerk =
    Function.update B.clerk t { B.clerk t with announcing := ids } := rfl
  have hI : Inv (B.hand t { B.clerk t with announcing := ids }) :=
    h.items (h.held.nodup t) (fun _ he => .inl he)
      (fun e he => ⟨h.apart e he t, fun u _ => h.apart e he u⟩) (Set.Subset.refl _)
      (fun _ he => .inl he) (fun _ => id) (fun _ he => .inl (he.imp_right fun hr => ⟨t, hr⟩)) hnd.2
      (fun e he => .inl (hk ▸ List.mem_cons_of_mem d he)) rfl rfl
  refine hI.tell_shown (hs.imp_right (has_same hc rfl).2) (fun hd => ?_) fun x _ =>
    ⟨(hx x).2, fun hp => (hx x).1 ((has_same hc rfl).1 hp), fun hx => hg x ((has_same hc rfl).1 hx)⟩
  rcases (has_update hc).1 hd with hmem | ⟨u, hut, hmem⟩
  · exact hnd.1 hmem
  · exact hut (h.news.unique u t d hmem (hk ▸ List.mem_cons_self))

theorem Inv.send {todo : List (σ × ι)} (h : B.Inv) (hk : (B.clerk t).sending = (x, d) :: todo) :
    Inv ((B.hand t { B.clerk t with sending := todo }).tell {x} (.shown d)) := by
  have hp : B.Pending x d := ⟨t, hk ▸ List.mem_cons_self⟩
  have hnd := List.nodup_cons.1 (hk ▸ h.lines.nodup t)
  have hs := h.pending x d hp
  have hc : (B.hand t { B.clerk t with sending := todo }).clerk =
    Function.update B.clerk t { B.clerk t with sending := todo } := rfl
  have hI : Inv (B.hand t { B.clerk t with sending := todo }) :=
    h.readers rfl rfl rfl (h.greeters.nodup t) (fun _ hy => .inl hy) hnd.2
      (fun z hz => .inl (hk ▸ List.mem_cons_of_mem _ hz)) fun _ hy => .inl hy
  refine hI.tell_shown (hs.1.imp_right (has_same hc rfl).2) (fun hd => ?_) ?_
  · exact ((h.announcing d ((has_same hc rfl).1 hd)).2 x).1 hp
  · rintro y rfl
    refine ⟨hs.2, fun hp' => ?_, fun hy => (h.greeting y ((has_same hc rfl).1 hy) d).1 hp⟩
    rcases (has_update hc).1 hp' with hmem | ⟨u, hut, hmem⟩
    · exact hnd.1 hmem
    · exact hut (h.lines.unique u t (y, d) hmem (hk ▸ List.mem_cons_self))

theorem Inv.greet (h : B.Inv) (hg : ¬ B.Greeting x) (hp : ∀ d, ¬ B.Pending x d) :
    Inv { (B.hand t { B.clerk t with greeting := x :: (B.clerk t).greeting }).restart x with
      listening := insert x B.listening } := by
  have hnil : (B.restart x).told x = [] := by simp [Bulletin.restart]
  refine (h.restart x).readers rfl rfl rfl ?_ (fun y hy => ?_) (h.lines.nodup t)
    (fun _ hz => .inl hz) fun y hy => ?_
  · exact List.nodup_cons.2 ⟨fun hmem => hg ⟨t, hmem⟩, h.greeters.nodup t⟩
  · rcases List.mem_cons.1 hy with rfl | hy
    · exact .inr ⟨hg, hnil, hp⟩
    · exact .inl hy
  · rcases hy with rfl | hy
    · exact .inr hnil
    · exact .inl hy

theorem Inv.snapshot {xs : List σ} {ids : List ι} (h : B.Inv)
    (hk : (B.clerk t).greeting = x :: xs) (hids : ids.Nodup)
    (hact : ∀ d ∈ ids, d ∈ B.active ∧ ¬ B.Announcing d) :
    Inv (B.hand t { B.clerk t with
      greeting := xs
      sending := ids.map (Prod.mk x) ++ (B.clerk t).sending }) := by
  have hx : x ∈ (B.clerk t).greeting := hk ▸ List.mem_cons_self
  have hnd := List.nodup_cons.1 (hk ▸ h.greeters.nodup t)
  refine h.readers rfl rfl rfl hnd.2 (fun y hy => .inl (hk ▸ List.mem_cons_of_mem x hy)) ?_ ?_
    fun _ hy => .inl hy
  · refine List.nodup_append.2 ⟨hids.map fun _ _ he => (Prod.mk.inj he).2, h.lines.nodup t, ?_⟩
    rintro z hz _ hz' rfl
    obtain ⟨e, -, rfl⟩ := List.mem_map.1 hz
    exact (h.greeting x ⟨t, hx⟩ e).1 ⟨t, hz'⟩
  · intro z hz
    rcases List.mem_append.1 hz with hz | hz
    · obtain ⟨e, he, rfl⟩ := List.mem_map.1 hz
      exact .inr ⟨hx, hnd.1, .inl (hact e he).1, (hact e he).2⟩
    · exact .inl hz

/-- The removal of an item is announced to everybody who was shown it. -/
theorem Inv.retract {ids : List ι} (h : B.Inv) (hk : (B.clerk t).removing = d :: ids)
    (hL : B.listening ⊆ hearers) (hd : ¬ B.Announcing d) (hp : ∀ x, ¬ B.Pending x d) :
    Inv ((B.hand t { B.clerk t with removing := ids }).tell hearers (.removed d)) := by
  have hc : (B.hand t { B.clerk t with removing := ids }).clerk =
    Function.update B.clerk t { B.clerk t with removing := ids } := rfl
  have hleft : B.Leaving d := ⟨t, hk ▸ List.mem_cons_self⟩
  have hperm : (B.clerk t).holds.Perm (d :: ((B.clerk t).making ++ ids)) := by
    rw [Clerk.holds, hk]
    exact List.perm_middle
  -- the clerk holds the item once
  have hnd := List.nodup_cons.1 (hperm.nodup_iff.1 (h.held.nodup t))
  have hsub : ∀ e ∈ (B.clerk t).making ++ ids, e ∈ (B.clerk t).holds :=
    fun e he => hperm.mem_iff.2 (List.mem_cons_of_mem d he)
  -- the item falls, all others stand as before
  have hstands : ∀ e, (B.hand t { B.clerk t with removing := ids }).Stands e ↔
    B.Stands e ∧ e ≠ d := by
    intro e
    constructor
    · rintro (he | he)
      · refine ⟨.inl he, ?_⟩
        rintro rfl
        exact h.apart e he t (hperm.mem_iff.2 List.mem_cons_self)
      · rcases (has_update (f := Clerk.removing) hc).1 he with he | ⟨u, hut, he⟩
        · refine ⟨.inr ⟨t, hk ▸ List.mem_cons_of_mem d he⟩, ?_⟩
          rintro rfl
          exact hnd.1 (List.mem_append_right _ he)
        · refine ⟨.inr ⟨u, he⟩, ?_⟩
          rintro rfl
          exact hut (h.held.unique u t e (List.mem_append_right _ he)
            (hperm.mem_iff.2 List.mem_cons_self))
    · rintro ⟨he | ⟨u, he⟩, hne⟩
      · exact .inl he
      · refine .inr ((has_update hc).2 ?_)
        by_cases hut : u = t
        · subst hut
          rw [hk] at he
          exact .inl ((List.mem_cons.1 he).resolve_left hne)
        · exact .inr ⟨u, hut, he⟩
  have htold : ∀ {n x}, n ∈ B.told x →
      n ∈ ((B.hand t { B.clerk t with removing := ids }).tell hearers (.removed d)).told x :=
    fun hn => mem_tell.2 (.inl hn)
  exact
    { held := h.held.update hnd.2 fun e he => .inl (hsub e he)
      news := h.news.shrink (.refl _)
      greeters := h.greeters.shrink (.refl _)
      lines := h.lines.shrink (.refl _)
      apart := fun e he u => by
        show e ∉ (Function.update B.clerk t _ u).holds
        by_cases hut : u = t
        · subst hut
          rw [Function.update_self]
          exact fun hmem => h.apart e he u (hsub e hmem)
        · rw [Function.update_of_ne hut]
          exact h.apart e he u
      used := fun e he => by
        rcases he with hm | hs | ⟨x, n, hn, hne⟩
        · exact h.used e (.inl ((has_same hc rfl).1 hm))
        · exact h.used e (.inr (.inl ((hstands e).1 hs).1))
        · rcases mem_tell.1 hn with hold | ⟨-, rfl⟩
          · exact h.used e (.inr (.inr ⟨x, n, hold, hne⟩))
          · obtain rfl : d = e := hne
            exact h.used d (.inr (.inl (.inr hleft)))
      unlisted := fun e he x n hn hne => by
        have hm := (has_same (f := Clerk.making) hc rfl).1 he
        rcases mem_tell.1 hn with hold | ⟨-, rfl⟩
        · exact h.unlisted e hm x n hold hne
        · obtain rfl : d = e := hne
          exact h.not_stands hm (.inr hleft)
      standing := fun e he x hr => by
        obtain ⟨hs, hne⟩ := (hstands e).1 he
        rcases mem_tell.1 hr with hold | ⟨-, heq⟩
        · exact h.standing e hs x hold
        · cases heq
          exact hne rfl
      announcing := fun e he => by
        have ha := (has_same (f := Clerk.announcing) hc rfl).1 he
        refine ⟨(hstands e).2 ⟨(h.announcing e ha).1, ?_⟩, fun x => ⟨fun hp' => ?_, fun hs => ?_⟩⟩
        · rintro rfl
          exact hd ha
        · exact ((h.announcing e ha).2 x).1 ((has_same hc rfl).1 hp')
        · rcases mem_tell.1 hs with hold | ⟨-, heq⟩
          · exact ((h.announcing e ha).2 x).2 hold
          · cases heq
      pending := fun x e he => by
        have hpe := (has_same (f := Clerk.sending) hc rfl).1 he
        refine ⟨(hstands e).2 ⟨(h.pending x e hpe).1, ?_⟩, fun hs => ?_⟩
        · rintro rfl
          exact hp x hpe
        · rcases mem_tell.1 hs with hold | ⟨-, heq⟩
          · exact (h.pending x e hpe).2 hold
          · cases heq
      greeting := fun x hx e => by
        have hg := h.greeting x ((has_same hc rfl).1 hx) e
        refine ⟨fun hp' => hg.1 ((has_same hc rfl).1 hp'), fun hs => ?_⟩
        rcases mem_tell.1 hs with hold | ⟨-, heq⟩
        · exact hg.2 hold
        · cases heq
      orderly := fun x => by
        simp only [tell]
        split_ifs
        · exact (h.orderly x).concat nofun
        · exact h.orderly x
      alive := fun x hx e hs hr => by
        refine (hstands e).2 ⟨h.alive x hx e ?_ fun hold => hr (htold hold), ?_⟩
        · rcases mem_tell.1 hs with hold | ⟨-, heq⟩
          · exact hold
          · cases heq
        · rintro rfl
          exact hr (mem_tell.2 (.inr ⟨hL hx, rfl⟩)) }

/-- **Every step keeps the invariant.** -/
theorem Inv.step (h : B.Inv) (hstep : B.Step t B') : B'.Inv := by
  cases hstep with
  | quit L hL => exact h.quit hL
  | allot d hd => exact h.allot hd
  | drop ids hs => exact h.drop hs
  | place d ids hk => exact h.place hk
  | list d ids hk => exact h.list hk
  | take ids hids hact => exact h.take hids hact
  | relist d ids hk => exact h.relist hk
  | announce d ids hearers hk _ hg => exact h.announce hk hg
  | retract d ids hearers hk hL hd hp => exact h.retract hk hL hd hp
  | restart x => exact h.restart x
  | greet x hg hp => exact h.greet hg hp
  | snapshot x xs ids hk hids hact => exact h.snapshot hk hids hact
  | send x d todo hk => exact h.send hk

end Bulletin

end UnderFlow
