-- Lists that name each value of a sort exactly once, and how such lists are put
-- together. An enumeration by size is built from these pieces only: it divides a size,
-- makes a part of the first share, and makes the whole of the part and the rest.
import FomegaLab.Split
import Mathlib.Data.List.Nodup

namespace FomegaLab

/-- A list names the values with the property `P`, each of them once, and no others. -/
structure Lists {α : Type} (l : List α) (P : α → Prop) : Prop where
  nodup : l.Nodup
  mem_iff : ∀ a, a ∈ l ↔ P a

namespace Lists

variable {α β : Type} {l : List α} {P : α → Prop}

theorem congr {P' : α → Prop} (h : Lists l P) (hP : ∀ a, P a ↔ P' a) : Lists l P' :=
  ⟨h.nodup, fun a => (h.mem_iff a).trans (hP a)⟩

theorem nil (h : ∀ a, ¬ P a) : Lists [] P :=
  ⟨List.nodup_nil, fun a => iff_of_false List.not_mem_nil (h a)⟩

theorem singleton (a : α) : Lists [a] (· = a) :=
  ⟨List.nodup_singleton a, fun _ => List.mem_singleton⟩

theorem ite {c : Prop} [Decidable c] (h : c → Lists l P) :
    Lists (if c then l else []) fun a => c ∧ P a := by
  by_cases hc : c
  · rw [if_pos hc]
    exact (h hc).congr fun a => ⟨fun ha => ⟨hc, ha⟩, And.right⟩
  · rw [if_neg hc]
    exact nil fun a ha => hc ha.1

theorem map (h : Lists l P) {f : α → β} (hf : f.Injective) :
    Lists (l.map f) fun b => ∃ a, P a ∧ f a = b :=
  ⟨h.nodup.map hf, fun b => by simp only [List.mem_map, h.mem_iff]⟩

/-- The lists that belong to the values of a list, if a value tells where it is from. -/
theorem flatMap (h : Lists l P) {f : α → List β} {Q : α → β → Prop}
    (hf : ∀ a, P a → Lists (f a) (Q a))
    (hQ : ∀ {a a' b}, P a → P a' → Q a b → Q a' b → a = a') :
    Lists (l.flatMap f) fun b => ∃ a, P a ∧ Q a b := by
  constructor
  · refine List.nodup_flatMap.mpr ⟨fun a ha => (hf a ((h.mem_iff a).mp ha)).nodup, ?_⟩
    refine h.nodup.pairwise_of_forall_ne fun a ha a' ha' hne => List.disjoint_left.mpr ?_
    intro b hb hb'
    have hPa := (h.mem_iff a).mp ha
    have hPa' := (h.mem_iff a').mp ha'
    exact hne (hQ hPa hPa' (((hf a hPa).mem_iff b).mp hb) (((hf a' hPa').mem_iff b).mp hb'))
  · intro b
    simp only [List.mem_flatMap, h.mem_iff]
    exact exists_congr fun a => and_congr_right fun ha => (hf a ha).mem_iff b

/-! ## Dividing a size -/

theorem ofSplits {least n : Nat} (h : 0 < least) :
    Lists (splits least n) fun p => 1 ≤ p.1 ∧ least ≤ p.2 ∧ p.1 + p.2 = n := by
  refine ⟨?_, fun p => mem_splits h⟩
  exact List.Nodup.map (fun i j hij => (Prod.mk.inj hij).1) List.nodup_range'

/-- Values of the size `n` that are made of a part and of what is left of the size. -/
theorem ofParts {least n : Nat} (h : 0 < least) {parts : Nat → List α} {size : α → Int}
    (hparts : ∀ i, i + least ≤ n → Lists (parts i) fun a => P a ∧ size a = i)
    (hsize : ∀ a, P a → 1 ≤ size a) {f : α → Nat → List β} {Q : α → Nat → β → Prop}
    (hf : ∀ a (rest : Nat), P a → size a + rest = n → Lists (f a rest) (Q a rest))
    (hQ : ∀ {a a' rest rest' b}, Q a rest b → Q a' rest' b → a = a') :
    Lists ((splits least n).flatMap fun p => (parts p.1).flatMap fun a => f a p.2)
      fun b => ∃ a rest, P a ∧ least ≤ rest ∧ size a + (rest : Int) = n ∧ Q a rest b := by
  have hrest : ∀ p : Nat × Nat, 1 ≤ p.1 ∧ least ≤ p.2 ∧ p.1 + p.2 = n →
      Lists ((parts p.1).flatMap fun a => f a p.2)
        fun b => ∃ a, (P a ∧ size a = p.1) ∧ Q a p.2 b := by
    intro p hp
    exact (hparts p.1 (by omega)).flatMap (fun a ha => hf a p.2 ha.1 (by omega))
      fun _ _ hb hb' => hQ hb hb'
  refine ((ofSplits h).flatMap hrest ?_).congr fun b => ⟨?_, ?_⟩
  · rintro p p' b hp hp' ⟨a, ha, hb⟩ ⟨a', ha', hb'⟩
    cases hQ hb hb'
    exact Prod.ext (by omega) (by omega)
  · rintro ⟨p, hp, a, ha, hb⟩
    exact ⟨a, p.2, ha.1, hp.2.1, by omega, hb⟩
  · rintro ⟨a, rest, ha, hle, hn, hb⟩
    have := hsize a ha
    refine ⟨((size a).toNat, rest), ⟨?_, hle, ?_⟩, a, ⟨ha, ?_⟩, hb⟩
    · change 1 ≤ (size a).toNat
      omega
    · change (size a).toNat + rest = n
      omega
    · change size a = ((size a).toNat : Nat)
      omega

/-- Pairs of two parts that share the size `n`. -/
theorem ofPairs {γ : Type} {n : Nat} {as : Nat → List α} {size : α → Int}
    (has : ∀ i, i < n → Lists (as i) fun a => P a ∧ size a = i) (hsize : ∀ a, P a → 1 ≤ size a)
    {bs : Nat → List β} {Q : β → Prop} {size' : β → Int}
    (hbs : ∀ j, j < n → Lists (bs j) fun b => Q b ∧ size' b = j)
    (hsize' : ∀ b, Q b → 1 ≤ size' b) {f : α → β → γ} (hf : Function.Injective2 f) :
    Lists ((splits 1 n).flatMap fun p => cross f (as p.1) fun _ => bs p.2)
      fun c => ∃ a b, P a ∧ Q b ∧ size a + size' b = n ∧ f a b = c := by
  simp only [cross_eq]
  have hrest : ∀ a (rest : Nat), P a → size a + rest = n →
      Lists ((bs rest).map (f a)) fun c => ∃ b, (Q b ∧ size' b = rest) ∧ f a b = c := by
    intro a rest ha hn
    have := hsize a ha
    exact (hbs rest (by omega)).map (hf.right a)
  have hfirst : ∀ i, i + 1 ≤ n → Lists (as i) fun a => P a ∧ size a = i := has
  refine (ofParts Nat.one_pos hfirst hsize hrest ?_).congr fun c => ⟨?_, ?_⟩
  · rintro a a' rest rest' c ⟨b, _, rfl⟩ ⟨b', _, hc⟩
    exact (hf hc).1.symm
  · rintro ⟨a, rest, ha, _, hn, b, ⟨hb, hrest⟩, hc⟩
    exact ⟨a, b, ha, hb, by omega, hc⟩
  · rintro ⟨a, b, ha, hb, hn, hc⟩
    have := hsize' b hb
    refine ⟨a, (size' b).toNat, ha, ?_, ?_, b, ⟨hb, ?_⟩, hc⟩
    · omega
    · omega
    · omega

/-! ## One list for each shape -/

/-- Lists for different shapes, one after the other. -/
theorem ofShapes {σ γ : Type} {shape : α → σ} {cs : List γ} {f : γ → List α} {shapes : List σ}
    (h : List.Forall₂ (fun c s => Lists (f c) fun a => shape a = s ∧ P a) cs shapes)
    (hshapes : shapes.Nodup) : Lists (cs.flatMap f) fun a => shape a ∈ shapes ∧ P a := by
  induction h with
  | nil => exact nil fun a ha => by cases ha.1
  | @cons c s cs shapes hc _ ih =>
    obtain ⟨hs, hshapes⟩ := List.nodup_cons.mp hshapes
    have hcs := ih hshapes
    rw [List.flatMap_cons]
    constructor
    · refine List.Nodup.append hc.nodup hcs.nodup (List.disjoint_left.mpr fun a ha ha' => hs ?_)
      rw [← ((hc.mem_iff a).mp ha).1]
      exact ((hcs.mem_iff a).mp ha').1
    · intro a
      rw [List.mem_append, hc.mem_iff, hcs.mem_iff, List.mem_cons, or_and_right]

end Lists

end FomegaLab
