import MatchingEngine.Proof.Refine
import MatchingEngine.Ref.Renaming

/-!
# Books and their images

`Images P T b b'`: the states two books stand for are image of each other under the symmetry `T`.
The books themselves may differ in slots and links.

* `Images.apply`: the engine on a command and on its image, snapshots apart.
* `Images.plain_apply`: every command, if only names change.
-/

namespace MatchingEngine

/-- `b'` stands for the image of what `b` stands for. -/
def Images (P : Profile) (T : Symmetry) (b b' : Book) : Prop :=
  ∃ r r', Sim P ⊤ b r ∧ Sim P ⊤ b' r' ∧ r.Image T r'

namespace Images

variable {P : Profile} {T : Symmetry} {b b' : Book} {e e' : Engine} {c : Command}

theorem new (P : Profile) (T : Symmetry) : Images P T Book.new Book.new :=
  ⟨Ref.new, Ref.new, Sim.new P ⊤, Sim.new P ⊤, Ref.Image.new T⟩

/-- Two commands that are not stopped by a zero price, on a state and its image. -/
theorem agree {r r' : Ref} {c' : Command} (hP : P.Total) (hs : Sim P ⊤ e.book r) (hs' : Sim P ⊤ e'.book r')
    (hc : c.Checked P) (hc' : c'.Checked P) (hz : c = .snapshot → ∀ o ∈ r.orders, o.price ≠ 0)
    (hz' : c' = .snapshot → ∀ o ∈ r'.orders, o.price ≠ 0) (h : Ref.ImageOut T (r.apply P c) (r'.apply P c')) :
    Agree (fun e e' : Engine => Images P T e.book e'.book) (List.map T.event) (e.apply P c) (e'.apply P c') := by
  obtain ⟨e₁, he₁, hs₁⟩ := hs.apply hc (Fits.of_total hP _) hz
  obtain ⟨e₁', he₁', hs₁'⟩ := hs'.apply hc' (Fits.of_total hP _) hz'
  rw [he₁, he₁', h.events]
  exact .ok ⟨_, _, hs₁, hs₁', h.state⟩

/-- **A command and its image**, snapshots apart. -/
theorem apply (hP : P.Total) (h : Images P T e.book e'.book) (hc : c.Checked P) (hc' : (T.command c).Checked P)
    (hadm : T.Admits c) (hne : c ≠ .snapshot) :
    Agree (fun e e' : Engine => Images P T e.book e'.book) (List.map T.event) (e.apply P c)
      (e'.apply P (T.command c)) := by
  obtain ⟨r, r', hs, hs', hi⟩ := h
  have hne' : T.command c ≠ .snapshot := by
    cases c with
    | snapshot => exact absurd rfl hne
    | _ => simp [Symmetry.command]
  exact agree hP hs hs' hc hc' (fun he => absurd he hne) (fun he => absurd he hne') (hi.apply hs'.wf P hadm hne)

/-! ### Under new names -/

theorem openOrderCount (h : Images P T b b') (a : ℕ) :
    b'.accountOpenOrderCount (T.account a) = b.accountOpenOrderCount a := by
  obtain ⟨r, r', hs, hs', hi⟩ := h
  rw [hs.openOrderCount, hs'.openOrderCount, hi.slots, List.length_map]

section Plain

variable (hT : T.Plain)
include hT

/-- **Every command, under new names.** -/
theorem plain_apply (hP : P.Total) (h : Images P T e.book e'.book) (hc : c.Checked P) :
    Agree (fun e e' : Engine => Images P T e.book e'.book) (List.map T.event) (e.apply P c)
      (e'.apply P (T.command c)) := by
  obtain ⟨r, r', hs, hs', hi⟩ := h
  have horders := hi.plain_orders hT
  by_cases hz : c = .snapshot ∧ ∃ o ∈ r.orders, o.price = 0
  · -- both snapshots meet the zero price
    obtain ⟨rfl, o, ho, hp⟩ := hz
    have ho' : T.order o ∈ r'.orders := horders ▸ List.mem_map_of_mem ho
    have hp' : (T.order o).price = 0 := (hT.price o.price).trans hp
    rw [hs.apply_zero ho hp, show T.command .snapshot = .snapshot from rfl, hs'.apply_zero ho' hp']
    exact .error _
  · refine agree hP hs hs' hc (hT.checked hc) (fun he o ho hp => hz ⟨he, o, ho, hp⟩) ?_ (hi.plain_apply hT hs'.wf P c)
    intro he o' ho' hp'
    have hc' : c = .snapshot := by
      cases c with
      | snapshot => rfl
      | _ => simp [Symmetry.command] at he
    rw [horders] at ho'
    obtain ⟨o, ho, rfl⟩ := List.mem_map.1 ho'
    exact hz ⟨hc', o, ho, (hT.price o.price).symm.trans hp'⟩

theorem topOfBook (h : Images P T b b') : b'.topOfBook = b.topOfBook := by
  obtain ⟨r, r', hs, hs', hi⟩ := h
  rw [hs.topOfBook, hs'.topOfBook, hi.plain_topOfBook hT]

theorem lastTrade (h : Images P T b b') : b'.lastTrade = b.lastTrade := by
  obtain ⟨r, r', hs, hs', hi⟩ := h
  rw [hs.lastTrade, hs'.lastTrade, hi.plain_lastTrade hT]

theorem bestBid (h : Images P T b b') : b'.bestBid = b.bestBid := by
  obtain ⟨r, r', hs, hs', hi⟩ := h
  have hside : r'.bids = r.bids.map T.order := hi.plain_side hT .buy
  rw [hs.bestBid, hs'.bestBid, hside, List.head?_map, Option.map_map]
  simp only [Function.comp_def, Symmetry.order, hT.price]

theorem bestAsk (h : Images P T b b') : b'.bestAsk = b.bestAsk := by
  obtain ⟨r, r', hs, hs', hi⟩ := h
  have hside : r'.asks = r.asks.map T.order := hi.plain_side hT .sell
  rw [hs.bestAsk, hs'.bestAsk, hside, List.head?_map, Option.map_map]
  simp only [Function.comp_def, Symmetry.order, hT.price]

theorem accountNotional (h : Images P T b b') (a : ℕ) : b'.accountNotional (T.account a) = b.accountNotional a := by
  obtain ⟨r, r', hs, hs', hi⟩ := h
  have hn := hs.notional a
  have hn' := hs'.notional (T.account a)
  rw [hi.plain_notional hT, hn] at hn'
  exact (Option.some.inj hn').symm

theorem restingOrderSnapshot (h : Images P T b b') (a i : ℕ) :
    b'.restingOrderSnapshot (T.account a) (T.id a i) = b.restingOrderSnapshot a i := by
  obtain ⟨r, r', hs, hs', hi⟩ := h
  have hf : r'.find (T.account a, T.id a i) = _ := hi.find hs'.wf (a, i)
  rw [hs.restingOrderSnapshot, hs'.restingOrderSnapshot, hf, Option.map_map]
  simp only [Function.comp_def, Symmetry.order, hT.price]

end Plain

end Images

end MatchingEngine
