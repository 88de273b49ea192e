import Mathlib.Data.Finset.Card
import Mathlib.Data.Set.Basic

/-!
Blocks that are owned by slots. A slot is a place that can hold a block number; a
region of blocks is in order when every slot in use names a block of the region
that is marked, no two slots name the same one, and every marked block is named.
Slots come into use with a fresh block and go out of use with the mark.
-/

namespace OsProjects.Ownership

variable {Slot Block : Type} {block block' : Slot → Block} {slots slots' : Set Slot}
  {marked marked' region : Set Block}

structure Owned (block : Slot → Block) (slots : Set Slot) (marked region : Set Block) : Prop where
  inside : ∀ s ∈ slots, block s ∈ region ∧ block s ∈ marked
  inj : ∀ s ∈ slots, ∀ t ∈ slots, block s = block t → s = t
  named : ∀ b ∈ region, b ∈ marked → ∃ s ∈ slots, block s = b

/-- As many blocks of the region are marked as there are slots in use. -/
theorem Owned.card {used : Finset Slot} {blocks : Finset Block} {mark : Block → Prop}
    [DecidablePred mark] (owned : Owned block used {b | mark b} blocks) :
    (blocks.filter mark).card = used.card := by
  symm
  refine Finset.card_bij (fun s _ => block s) ?_ ?_ ?_
  · intro s here
    exact Finset.mem_filter.mpr (owned.inside s here)
  · intro s here t there same
    exact owned.inj s here t there same
  · intro b here
    obtain ⟨inside, mark⟩ := Finset.mem_filter.mp here
    obtain ⟨s, used, same⟩ := owned.named b inside mark
    exact ⟨s, used, same⟩

theorem Owned.add (owned : Owned block slots marked region) {s : Slot} {b : Block}
    (fresh : b ∉ marked) (inside : b ∈ region) (new : block' s = b)
    (others : ∀ t ∈ slots, block' t = block t) (used : ∀ t, t ∈ slots' ↔ t ∈ slots ∨ t = s)
    (marks : ∀ c ∈ region, c ∈ marked' ↔ c ∈ marked ∨ c = b) :
    Owned block' slots' marked' region := by
  have away : ∀ t ∈ slots, block t ≠ b := fun t here same => fresh (same ▸ (owned.inside t here).2)
  refine ⟨fun t here => ?_, fun t one u two same => ?_, fun c here mark => ?_⟩
  · rcases (used t).mp here with old | rfl
    · obtain ⟨within, mark⟩ := owned.inside t old
      rw [others t old]
      exact ⟨within, (marks _ within).mpr (Or.inl mark)⟩
    · rw [new]
      exact ⟨inside, (marks b inside).mpr (Or.inr rfl)⟩
  · rcases (used t).mp one with old | rfl
    · rcases (used u).mp two with old' | rfl
      · rw [others t old, others u old'] at same
        exact owned.inj t old u old' same
      · rw [others t old, new] at same
        exact absurd same (away t old)
    · rcases (used u).mp two with old' | rfl
      · rw [others u old', new] at same
        exact absurd same.symm (away u old')
      · rfl
  · rcases (marks c here).mp mark with old | rfl
    · obtain ⟨t, member, same⟩ := owned.named c here old
      exact ⟨t, (used t).mpr (Or.inl member), (others t member).trans same⟩
    · exact ⟨s, (used s).mpr (Or.inr rfl), new⟩

theorem Owned.drop (owned : Owned block slots marked region) {s : Slot} (member : s ∈ slots)
    (others : ∀ t ∈ slots, t ≠ s → block' t = block t) (used : ∀ t, t ∈ slots' ↔ t ∈ slots ∧ t ≠ s)
    (marks : ∀ c ∈ region, c ∈ marked' ↔ c ∈ marked ∧ c ≠ block s) :
    Owned block' slots' marked' region := by
  refine ⟨fun t here => ?_, fun t one u two same => ?_, fun c here mark => ?_⟩
  · obtain ⟨old, differ⟩ := (used t).mp here
    obtain ⟨within, mark⟩ := owned.inside t old
    rw [others t old differ]
    exact ⟨within, (marks _ within).mpr ⟨mark, fun same => differ (owned.inj t old s member same)⟩⟩
  · obtain ⟨one, first⟩ := (used t).mp one
    obtain ⟨two, second⟩ := (used u).mp two
    rw [others t one first, others u two second] at same
    exact owned.inj t one u two same
  · obtain ⟨old, differ⟩ := (marks c here).mp mark
    obtain ⟨t, member', rfl⟩ := owned.named c here old
    have other : t ≠ s := fun same => differ (same ▸ rfl)
    exact ⟨t, (used t).mpr ⟨member', other⟩, others t member' other⟩

/-- The slots in use still name the same blocks, and the marks are the same. -/
theorem Owned.congr (owned : Owned block slots marked region)
    (same : ∀ s ∈ slots, block' s = block s) (used : ∀ s, s ∈ slots' ↔ s ∈ slots)
    (marks : ∀ c ∈ region, c ∈ marked' ↔ c ∈ marked) : Owned block' slots' marked' region := by
  refine ⟨fun s here => ?_, fun s one t two equal => ?_, fun c here mark => ?_⟩
  · have here := (used s).mp here
    obtain ⟨within, mark⟩ := owned.inside s here
    rw [same s here]
    exact ⟨within, (marks _ within).mpr mark⟩
  · have one := (used s).mp one
    have two := (used t).mp two
    rw [same s one, same t two] at equal
    exact owned.inj s one t two equal
  · obtain ⟨s, member, rfl⟩ := owned.named c here ((marks c here).mp mark)
    exact ⟨s, (used s).mpr member, same s member⟩

end OsProjects.Ownership
