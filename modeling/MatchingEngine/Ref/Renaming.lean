import MatchingEngine.Ref.Symmetry

/-!
# Renamings of the reference book

A renaming is a symmetry that leaves prices and sides alone. Under one, snapshots too show the
same book.

* `Image.snapshot`: snapshots, with their accounts in the same order.
* `Image.plain_apply`: every command, with its top-of-book update.
-/

namespace MatchingEngine

/-- A renaming leaves prices and sides as they are. -/
def Renaming.symmetry (ν : Renaming) : Symmetry where
  toRenaming := ν
  side s := s
  price p := p
  dom _ := True
  side_opposite _ := rfl
  better _ _ _ := Iff.rfl
  market _ _ := Iff.rfl

namespace Symmetry

variable {T : Symmetry}

/-- Only names change. -/
structure Plain (T : Symmetry) : Prop where
  side : ∀ s, T.side s = s
  price : ∀ p, T.price p = p
  dom : ∀ p, T.dom p

/-- What leaves sides and prices alone admits every command. -/
theorem Plain.admits (h : T.Plain) (c : Command) : T.Admits c := by
  cases c with
  | newOrder a i s p q k t ts => exact fun _ => h.dom p
  | cancelReplace a i p q => exact h.dom p
  | _ => trivial

/-- What leaves sides and prices alone keeps what the engine expects of a command. -/
theorem Plain.checked (h : T.Plain) {P : Profile} {c : Command} (hc : c.Checked P) : (T.command c).Checked P := by
  cases c with
  | newOrder a i s p q k t ts =>
    refine ⟨hc.1, fun hd hk => ?_⟩
    subst hk
    rw [h.price]
    exact hc.2 hd rfl
  | _ => trivial

/-- Prices stay, also where there may be none. -/
theorem Plain.map_price (h : T.Plain) (x : Option ℕ) : x.map T.price = x := by
  rw [show T.price = fun p => p from funext h.price]
  exact Option.map_id'

/-- So does the touch. -/
theorem Plain.touch (h : T.Plain) (t : TouchSide) : T.touch t = t := by
  unfold Symmetry.touch
  simp [h.price]

theorem Plain.touches (h : T.Plain) (bid ask : TouchSide) : T.touches bid ask = (bid, ask) := by
  unfold Symmetry.touches
  rw [h.side]
  simp only [h.touch]

end Symmetry

/-- A renaming leaves sides and prices alone. -/
theorem Renaming.plain (ν : Renaming) : ν.symmetry.Plain := ⟨fun _ => rfl, fun _ => rfl, fun _ => trivial⟩

namespace Ref

namespace Image

variable {T : Symmetry} {r r' : Ref}

/-- Each element once, at its first appearance, under other names. -/
theorem firstSeen_map {f : ℕ → ℕ} (hf : Function.Injective f) (seen l : List ℕ) :
    firstSeen (seen.map f) (l.map f) = (firstSeen seen l).map f := by
  induction l generalizing seen with
  | nil => rfl
  | cons a l ih =>
    rw [List.map_cons, firstSeen, firstSeen, ← ih]
    congr 1
    by_cases ha : a ∈ seen
    · rw [if_pos ha, if_pos (List.mem_map_of_mem ha)]
    · rw [if_neg ha, if_neg (fun hm => ha ((List.mem_map_of_injective hf).1 hm)), List.map_append]
      rfl

section Plain

variable (hT : T.Plain)
include hT

/-- Each side is the other's, renamed; and so for what is computed from it. -/
theorem plain_side (h : Image T r r') (s : Side) : r'.side s = (r.side s).map T.order := by
  have hs := h.side s
  rwa [hT.side] at hs

theorem plain_filter (h : Image T r r') (s : Side) (p : ℕ) :
    (r'.side s).filter (fun o => o.price = p) = ((r.side s).filter (fun o => o.price = p)).map T.order := by
  rw [h.plain_side hT, List.filter_map]
  simp only [Function.comp_def, Symmetry.order, hT.price]

/-- Quantities by level stay. -/
theorem plain_qtyAt (h : Image T r r') (s : Side) (p : ℕ) : qtyAt (r'.side s) p = qtyAt (r.side s) p := by
  unfold qtyAt
  rw [h.plain_filter hT, List.map_map]
  rfl

theorem plain_prices (h : Image T r r') (s : Side) : r'.prices s = r.prices s := by
  have hp : ∀ s, (r'.side s).map Order.price = (r.side s).map Order.price := by
    intro s
    rw [h.plain_side hT, List.map_map]
    simp only [Function.comp_def, Symmetry.order, hT.price]
  cases s with
  | buy => exact congrArg (fun l : List ℕ => l.dedup.reverse) (hp .buy)
  | sell => exact congrArg List.dedup (hp .sell)

/-- So does the top of the book. -/
theorem plain_topOfBook (h : Image T r r') (P : Profile) : r'.topOfBook P = r.topOfBook P := by
  rw [h.topOfBook, hT.touches]

theorem plain_lastTrade (h : Image T r r') : r'.lastTrade = r.lastTrade := by
  rw [h.lastTrade, hT.map_price]

/-- All orders, renamed. -/
theorem plain_orders (h : Image T r r') : r'.orders = r.orders.map T.order := by
  unfold orders
  rw [List.map_append, show r'.bids = _ from h.plain_side hT .buy, show r'.asks = _ from h.plain_side hT .sell]
  rfl

/-- An account's notional is found under its new name. -/
theorem plain_notional (h : Image T r r') (a : ℕ) : r'.notional (T.account a) = r.notional a := by
  unfold Ref.notional notionalIn
  rw [h.plain_orders hT, List.filter_map, List.map_map]
  simp only [Function.comp_def, Symmetry.order_account]
  simp only [Symmetry.order, hT.price]

/-- The level rows of a snapshot. -/
theorem plain_snapshotLevels (h : Image T r r') (P : Profile) (s : Side) :
    r'.snapshotLevels P s = (r.snapshotLevels P s).map T.event := by
  unfold Ref.snapshotLevels
  rw [h.plain_prices hT, List.map_map]
  apply List.map_congr_left
  intro p _
  rw [h.plain_qtyAt hT, h.plain_filter hT, List.length_map]
  simp only [Function.comp_def, Symmetry.event, hT.side, hT.price]

/-- The orders a snapshot goes through, renamed. -/
theorem plain_snapshotOrders (h : Image T r r') (s : Side) :
    r'.snapshotOrders s = (r.snapshotOrders s).map T.order := by
  unfold Ref.snapshotOrders
  rw [h.plain_prices hT, List.map_flatMap]
  apply List.flatMap_congr
  intro p _
  exact h.plain_filter hT s p

/-- **Snapshots show the same book under other names.** -/
theorem snapshot (h : Image T r r') (P : Profile) : r'.snapshot P = (r.snapshot P).map T.event := by
  have haccounts : firstSeen [] ((r'.snapshotOrders .buy ++ r'.snapshotOrders .sell).map Order.account) =
      (firstSeen [] ((r.snapshotOrders .buy ++ r.snapshotOrders .sell).map Order.account)).map T.account := by
    rw [h.plain_snapshotOrders hT, h.plain_snapshotOrders hT, ← List.map_append, List.map_map,
      ← firstSeen_map T.account_inj, List.map_map]
    rfl
  unfold Ref.snapshot
  simp only [haccounts, h.plain_snapshotLevels hT, h.plain_topOfBook hT, h.plain_prices hT, h.plain_lastTrade hT]
  simp only [List.map_append (f := T.event), List.map_map, List.map_cons, List.map_nil, List.length_map, Symmetry.event,
    hT.touches, hT.map_price]
  congr 2
  apply List.map_congr_left
  intro a _
  simp only [Function.comp_def, Symmetry.event, h.slots, List.length_map, h.plain_notional hT]

/-- **Every command, if only names change.** -/
theorem plain_apply (h : Image T r r') (hw : r'.WF) (P : Profile) (c : Command) :
    ImageOut T (r.apply P c) (r'.apply P (T.command c)) := by
  by_cases hs : c = .snapshot
  · subst hs
    exact h.apply_of_dispatch P ⟨h, h.snapshot hT P⟩
  · exact h.apply hw P (hT.admits c) hs

end Plain

end Image

end Ref

end MatchingEngine
