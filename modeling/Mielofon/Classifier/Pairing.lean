import Mielofon.Classifier.Pass

namespace Mielofon

/-!
# Which links are paired

The two halves of a tunnel are told apart by the names of their nodes alone (`pair_links` in
`classifier.rs`), so a half is paired only where the names leave no choice.

* `LinkKey.Sole` — the only link of its direction between its two nodes;
* `byDir_eq_singleton_iff` — the grouping finds one link of a direction when it is sole;
* `mem_pairLinks_iff` — the pairs: two sole links of different end nodes, one the reverse of
  the other;
* `pairLinks_involution` — what follows for every list of distinct links.
-/

/-- `l` leads from the node `l'` leads to, back to where `l'` comes from. -/
def LinkKey.Reverses (l l' : LinkKey) : Prop := l.from = l'.to ∧ l.to = l'.from

/-- `l` is listed, and no other listed link leads from its one node to its other. -/
def LinkKey.Sole (links : List LinkKey) (l : LinkKey) : Prop :=
  l ∈ links ∧ ∀ l' ∈ links, l'.from = l.from → l'.to = l.to → l' = l

theorem LinkKey.Reverses.symm {l l' : LinkKey} (h : l.Reverses l') : l'.Reverses l :=
  ⟨h.2.symm, h.1.symm⟩

/-- A listed reverse half that is sole is the only listed reverse half. -/
theorem LinkKey.Sole.eq_of_reverses {links : List LinkKey} {a b b' : LinkKey}
    (h : b.Sole links) (hb : b.Reverses a) (hmem : b' ∈ links) (hb' : b'.Reverses a) : b' = b :=
  h.2 b' hmem (hb'.1.trans hb.1.symm) (hb'.2.trans hb.2.symm)

theorem LinkKey.Sole.perm {links links' : List LinkKey} (hperm : links.Perm links') {l : LinkKey}
    (h : l.Sole links) : l.Sole links' :=
  ⟨hperm.mem_iff.mp h.1, fun l' hl' => h.2 l' (hperm.mem_iff.mpr hl')⟩

theorem mem_byDir {links : List LinkKey} {a b : String} {l : LinkKey} :
    l ∈ byDir links a b ↔ l ∈ links ∧ l.from = a ∧ l.to = b := by
  simp [byDir]

/-- The links of a direction are one link alone when that link is sole. -/
theorem byDir_eq_singleton_iff {links : List LinkKey} (hnd : links.Nodup) {a b : String}
    {l : LinkKey} : byDir links a b = [l] ↔ l.Sole links ∧ l.from = a ∧ l.to = b := by
  constructor
  · intro h
    have hl : l ∈ byDir links a b := by rw [h]; exact List.mem_singleton_self l
    obtain ⟨hmem, rfl, rfl⟩ := mem_byDir.mp hl
    refine ⟨⟨hmem, fun l' hl' hfrom hto => ?_⟩, rfl, rfl⟩
    rw [← List.mem_singleton, ← h]
    exact mem_byDir.mpr ⟨hl', hfrom, hto⟩
  · rintro ⟨⟨hmem, honly⟩, rfl, rfl⟩
    -- distinct links, all equal to the sole one, are that one
    have hdir : (byDir links l.from l.to).Nodup := hnd.filter _
    have hperm : (byDir links l.from l.to).Perm [l] := by
      rw [List.perm_ext_iff_of_nodup hdir (List.nodup_singleton l)]
      intro l'
      rw [mem_byDir, List.mem_singleton]
      constructor
      · rintro ⟨hl', hfrom, hto⟩
        exact honly l' hl' hfrom hto
      · rintro rfl
        exact ⟨hmem, rfl, rfl⟩
    exact List.perm_singleton.mp hperm

/-- The reverse half of a listed link: both are sole, and their nodes differ. -/
theorem pairOf_eq_some_iff {links : List LinkKey} (hnd : links.Nodup) {a b : LinkKey}
    (ha : a ∈ links) : pairOf links a = some b ↔
      a.Sole links ∧ b.Sole links ∧ b.Reverses a ∧ a.from ≠ a.to := by
  constructor
  · intro h
    unfold pairOf at h
    split at h
    · rename_i x y hown hrev
      split at h
      · rename_i hne
        obtain rfl := Option.some.inj h
        obtain ⟨hx, -⟩ := (byDir_eq_singleton_iff hnd).mp hown
        obtain ⟨hy, hyfrom, hyto⟩ := (byDir_eq_singleton_iff hnd).mp hrev
        -- the one link of its direction is the link itself
        have hax : a ∈ byDir links a.from a.to := mem_byDir.mpr ⟨ha, rfl, rfl⟩
        rw [hown, List.mem_singleton] at hax
        exact ⟨hax ▸ hx, hy, ⟨hyfrom, hyto⟩, hne⟩
      · exact absurd h (by simp)
    · exact absurd h (by simp)
  · rintro ⟨hsole, hrev, ⟨hfrom, hto⟩, hne⟩
    unfold pairOf
    rw [(byDir_eq_singleton_iff hnd).mpr ⟨hsole, rfl, rfl⟩,
      (byDir_eq_singleton_iff hnd).mpr ⟨hrev, hfrom, hto⟩]
    exact if_pos hne

theorem mem_pairLinks_iff {links : List LinkKey} (hnd : links.Nodup) {a b : LinkKey} :
    (a, b) ∈ pairLinks links ↔ a.Sole links ∧ b.Sole links ∧ b.Reverses a ∧ a.from ≠ a.to := by
  simp only [pairLinks, List.mem_filterMap, Option.map_eq_some_iff, Prod.mk.injEq]
  constructor
  · rintro ⟨l, hl, rev, hrev, rfl, rfl⟩
    exact (pairOf_eq_some_iff hnd hl).mp hrev
  · intro h
    exact ⟨a, h.1.1, b, (pairOf_eq_some_iff hnd h.1.1).mpr h, rfl, rfl⟩

/-- For every list of distinct links, the pairing is a partial function; it maps one link to
    another exactly when it maps that one back, and no link to itself; it is defined on the
    links of two different nodes that are the only one of their direction and have exactly one
    in the other; and the order of the list does not matter. -/
theorem pairLinks_involution {links : List LinkKey} (hnd : links.Nodup) :
    (∀ a b b', (a, b) ∈ pairLinks links → (a, b') ∈ pairLinks links → b = b') ∧
    (∀ a b, (a, b) ∈ pairLinks links ↔ (b, a) ∈ pairLinks links) ∧
    (∀ a, (a, a) ∉ pairLinks links) ∧
    (∀ a, (∃ b, (a, b) ∈ pairLinks links) ↔
      a ∈ links ∧ a.from ≠ a.to ∧
      (∀ l ∈ links, l.from = a.from → l.to = a.to → l = a) ∧
      ∃! b, b ∈ links ∧ b.from = a.to ∧ b.to = a.from) ∧
    ∀ links', links.Perm links' → ∀ a b, (a, b) ∈ pairLinks links ↔ (a, b) ∈ pairLinks links' := by
  refine ⟨fun a b b' h h' => ?_, fun a b => ?_, fun a h => ?_, fun a => ?_,
    fun links' hperm a b => ?_⟩
  · rw [mem_pairLinks_iff hnd] at h h'
    exact h'.2.1.eq_of_reverses h'.2.2.1 h.2.1.1 h.2.2.1
  · simp only [mem_pairLinks_iff hnd]
    constructor
    · rintro ⟨ha, hb, hrev, hne⟩
      exact ⟨hb, ha, hrev.symm, fun heq => hne (hrev.2.symm.trans (heq.symm.trans hrev.1))⟩
    · rintro ⟨hb, ha, hrev, hne⟩
      exact ⟨ha, hb, hrev.symm, fun heq => hne (hrev.2.symm.trans (heq.symm.trans hrev.1))⟩
  · obtain ⟨-, -, hrev, hne⟩ := (mem_pairLinks_iff hnd).mp h
    exact hne hrev.1
  · constructor
    · rintro ⟨b, h⟩
      obtain ⟨ha, hb, hrev, hne⟩ := (mem_pairLinks_iff hnd).mp h
      exact ⟨ha.1, hne, ha.2, b, ⟨hb.1, hrev⟩,
        fun b' ⟨hmem, hrev'⟩ => hb.eq_of_reverses hrev hmem hrev'⟩
    · -- the one reverse half is sole in its own direction
      rintro ⟨hmem, hne, honly, b, ⟨hb, hrev⟩, huniq⟩
      refine ⟨b, (mem_pairLinks_iff hnd).mpr ⟨⟨hmem, honly⟩, ⟨hb, fun l hl hfrom hto => ?_⟩,
        hrev, hne⟩⟩
      exact huniq l ⟨hl, hfrom.trans hrev.1, hto.trans hrev.2⟩
  · rw [mem_pairLinks_iff hnd, mem_pairLinks_iff (hperm.nodup_iff.mp hnd)]
    constructor
    · rintro ⟨ha, hb, h⟩
      exact ⟨ha.perm hperm, hb.perm hperm, h⟩
    · rintro ⟨ha, hb, h⟩
      exact ⟨ha.perm hperm.symm, hb.perm hperm.symm, h⟩

/-- Parallel tunnels leave their reverse half unpaired, whichever comes first. -/
def parallelTunnels : List LinkKey :=
  [⟨"node-0", "hub-a", "awg_hub_a"⟩, ⟨"hub-a", "node-0", "awg_node_0"⟩,
    ⟨"node-2", "hub-b", "awg_hub_b"⟩, ⟨"node-2", "hub-b", "awg_hub_b2"⟩,
    ⟨"hub-b", "node-2", "awg_node_2"⟩]

theorem parallelTunnels_unpaired :
    (⟨"hub-a", "node-0", "awg_node_0"⟩, ⟨"node-0", "hub-a", "awg_hub_a"⟩) ∈
        pairLinks parallelTunnels ∧
      ¬ ∃ b, (⟨"hub-b", "node-2", "awg_node_2"⟩, b) ∈ pairLinks parallelTunnels := by
  have hdistinct : parallelTunnels.Nodup := by decide
  have hpair := pairLinks_involution hdistinct
  refine ⟨(hpair.2.1 _ _).mp (by decide), fun hdefined => ?_⟩
  obtain ⟨-, -, -, b, -, huniq⟩ := (hpair.2.2.2.1 _).mp hdefined
  have hone := huniq ⟨"node-2", "hub-b", "awg_hub_b"⟩ (by decide)
  have hother := huniq ⟨"node-2", "hub-b", "awg_hub_b2"⟩ (by decide)
  exact absurd (hone.trans hother.symm) (by decide)

end Mielofon
