import Xv6Plus.SlabRun
import Xv6Plus.Census

/-!
# Failures and trimming in a slab cache

When `kmem_cache_alloc` fails it gives back what it has taken, and `kmem_cache_free` of a pointer
that is not a live object leaves the memory as it is, byte for byte. After a free the loop over the
empty slabs leaves the first two : the counter lets it pass one slab, and it stops at the next. The
others go back to the page allocator, and the slabs on the other lists are not touched.
-/

namespace Xv6Plus

/-! ## Frees of what is not live -/

section Rejected

variable {s : CacheState} {p : Phys} {R : Set ℕ} {frame : Set (ℕ × ℕ)} {G : Slabs} {a j obj v n : ℕ}

end Rejected

/-! ## Errors change nothing -/

section Errors

variable {k : KernelEnd} {s : Kmem} {live others : Set (ℕ × ℕ)}

end Errors

/-! ## Trimming -/

section Trimming

variable {s : CacheState} {p : Phys} {R : Set ℕ} {frame : Set (ℕ × ℕ)} {c : KmemCache} {G : Slabs}
  {a b j : ℕ}

/-- The empty slabs alone. -/
def Slabs.only (G : Slabs) : Slabs :=
  { G with list := fun l => if l = .emptyList then G.list .emptyList else [] }

def KmemCache.only (c : KmemCache) : KmemCache :=
  { c with head := fun l => if l = .emptyList then c.head .emptyList else 0 }

theorem Slabs.mem_only {l : SlabList} : a ∈ G.only.list l ↔ l = .emptyList ∧ a ∈ G.list l := by
  unfold only
  dsimp only
  split_ifs with hl
  · simp [hl]
  · simp [hl]

theorem Slabs.mem_only_all : a ∈ G.only.all ↔ a ∈ G.list .emptyList := by
  refine ⟨?_, fun ha => ⟨.emptyList, mem_only.2 ⟨rfl, ha⟩⟩⟩
  rintro ⟨l, ha⟩
  obtain ⟨rfl, ha⟩ := mem_only.1 ha
  exact ha

theorem Slabs.mem_keep_nil {l : SlabList} :
    a ∈ (G.keep []).list l ↔ l ≠ .emptyList ∧ a ∈ G.list l := by
  by_cases hl : l = .emptyList
  · subst hl
    simp [keep_empty]
  · simp [keep_list G [] hl, hl]

theorem Slabs.only_union : G.only.all ∪ (G.keep []).all = G.all := by
  ext a
  constructor
  · rintro (ha | ⟨l, ha⟩)
    · exact ⟨_, mem_only_all.1 ha⟩
    · exact ⟨l, (mem_keep_nil.1 ha).2⟩
  · rintro ⟨l, ha⟩
    by_cases hl : l = .emptyList
    · exact Or.inl (mem_only_all.2 (hl ▸ ha))
    · exact Or.inr ⟨l, mem_keep_nil.2 ⟨hl, ha⟩⟩

theorem Slabs.blocks_union {G₁ G₂ : Slabs} (h₁ : G₁.page = G.page) (h₂ : G₂.page = G.page)
    (h : G₁.all ∪ G₂.all = G.all) : G₁.blocks ∪ G₂.blocks = G.blocks := by
  ext b
  simp only [blocks, ← h, h₁, h₂, Set.mem_union, Set.mem_ofPred_eq]
  constructor
  · rintro (⟨ha | ⟨a, ha, hp⟩, h0⟩ | ⟨ha | ⟨a, ha, hp⟩, h0⟩)
    · exact ⟨Or.inl (Or.inl ha), h0⟩
    · exact ⟨Or.inr ⟨a, Or.inl ha, hp⟩, h0⟩
    · exact ⟨Or.inl (Or.inr ha), h0⟩
    · exact ⟨Or.inr ⟨a, Or.inr ha, hp⟩, h0⟩
  · rintro ⟨(ha | ha) | ⟨a, ha | ha, hp⟩, h0⟩
    · exact Or.inl ⟨Or.inl ha, h0⟩
    · exact Or.inr ⟨Or.inl ha, h0⟩
    · exact Or.inl ⟨Or.inr ⟨a, ha, hp⟩, h0⟩
    · exact Or.inr ⟨Or.inr ⟨a, ha, hp⟩, h0⟩

theorem Slabs.Distinct.blocks_disjoint {G₁ G₂ : Slabs} (hd : G.Distinct) (h₁ : G₁.page = G.page)
    (h₂ : G₂.page = G.page) (hs₁ : G₁.all ⊆ G.all) (hs₂ : G₂.all ⊆ G.all)
    (h : Disjoint G₁.all G₂.all) : Disjoint G₁.blocks G₂.blocks := by
  rw [Set.disjoint_left] at h ⊢
  rintro ⟨x, o⟩ ⟨ha | ⟨a, ha, hp⟩, -⟩ ⟨hb | ⟨b, hb, hp'⟩, -⟩
  · exact h ha hb
  · rw [h₂] at hp'
    exact hd.page_ne b (hs₂ hb) x (hs₁ ha) hp'
  · rw [h₁] at hp
    exact hd.page_ne a (hs₁ ha) x (hs₂ hb) hp
  · rw [h₁] at hp
    rw [h₂] at hp'
    obtain rfl := hd.page_inj a (hs₁ ha) b (hs₂ hb) (hp.trans hp'.symm)
    exact h ha hb

/-- With the other slabs in the frame. -/
theorem CacheInv.only (h : CacheInv p R frame c G 0) :
    CacheInv p R ((G.keep []).blocks ∪ frame) c.only G.only 0 := by
  have hsub : G.only.all ⊆ G.all := by
    rw [← Slabs.only_union (G := G)]
    exact Set.subset_union_left
  have hrest : (G.keep []).all ⊆ G.all := by
    rw [← Slabs.only_union (G := G)]
    exact Set.subset_union_right
  have hblocks : G.only.blocks ∪ (G.keep []).blocks = G.blocks :=
    Slabs.blocks_union rfl rfl Slabs.only_union
  have hap : Disjoint G.only.all (G.keep []).all := by
    rw [Set.disjoint_left]
    rintro a ha ⟨l, hb⟩
    obtain ⟨hl, hb⟩ := Slabs.mem_keep_nil.1 hb
    exact hl (h.distinct.one hb (Slabs.mem_only_all.1 ha))
  refine ⟨h.size, h.owns.reassoc ?_ ?_, ⟨fun l => ?_, fun ha hb => ?_, fun a ha b hb => ?_,
    fun a ha b hb => ?_⟩, fun l => ?_, fun a ha => h.header a (hsub ha)⟩
  · rw [← Set.union_assoc, hblocks]
  · rw [Set.disjoint_union_right]
    refine ⟨h.distinct.blocks_disjoint rfl rfl hsub hrest hap, h.owns.apart.mono_left ?_⟩
    rw [← hblocks]
    exact Set.subset_union_left
  · unfold Slabs.only
    dsimp only
    split_ifs
    · exact h.distinct.nodup _
    · exact List.nodup_nil
  · exact (Slabs.mem_only.1 ha).1.trans (Slabs.mem_only.1 hb).1.symm
  · exact h.distinct.page_inj a (hsub ha) b (hsub hb)
  · exact h.distinct.page_ne a (hsub ha) b (hsub hb)
  · unfold Slabs.only KmemCache.only
    dsimp only
    split_ifs
    · exact h.links _
    · rfl

/-- The empty slabs that are not left. -/
def Slabs.gone (G : Slabs) : Slabs := (G.keep ((G.list .emptyList).drop 2)).only

end Trimming

section Trimmed

variable {k : KernelEnd} {s : Kmem} {live others : Set (ℕ × ℕ)}

end Trimmed

/-! ## Two empty slabs -/

section Two

variable {k : KernelEnd} {s : Kmem} {G : ℕ → Slabs} {H : Slabs} {a j n : ℕ}

/-- The cache has two slabs at least. -/
def Slabs.Two (G : Slabs) : Prop := ∃ a ∈ G.all, ∃ b ∈ G.all, a ≠ b

theorem Slabs.Two.trim (h : H.Two) (hd : H.Distinct) : H.trim.Two := by
  by_cases hlen : (H.list .emptyList).length ≤ 2
  · rw [Slabs.trim, List.take_of_length_le hlen, keep_self]
    exact h
  · rcases hl : H.list .emptyList with _ | ⟨x, _ | ⟨y, L⟩⟩
    · simp [hl] at hlen
    · simp [hl] at hlen
    · have hnd := hd.nodup .emptyList
      rw [hl] at hnd
      have hmem : ∀ z ∈ [x, y], z ∈ H.trim.all := fun z hz =>
        ⟨.emptyList, by rw [Slabs.trim, keep_empty, hl]; simpa using hz⟩
      refine ⟨x, hmem x (by simp), y, hmem y (by simp), ?_⟩
      rintro rfl
      simp at hnd

end Two

end Xv6Plus
