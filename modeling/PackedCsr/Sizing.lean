-- Changes of the size, and what they do to the graph.
import PackedCsr.Runs

namespace packed_csr

open effects

/-! ## The law -/

/-- Doubling and halving keep the items in their order. The node table knows their new slots, the
last slot is free, no two neighbours hold items, and halving a doubled array gives the items of the
array back. -/
theorem resizing_keeps_the_graph (s : PCSR) (hs : Sized s) (h2 : 2 ≤ s.N) (hn : 0 < s.get_n)
    (hle : s.get_n ≤ UINT32_MAX) (hgrp : Grouped s.get_n (s.items.filter full)) :
    (∃ s', double_list s = .ok s' ∧ Rebuilt s s' (s.N * 2) ∧ IsGap s' (s'.N - 1) ∧ Apart s'.items ∧
      s'.N = logN s'.N * 2 ^ height s'.N ∧
      ∃ s'', exec half_list s' = .ok ((), s'') ∧ Rebuilt s s'' s.N) ∧
    ((s.items.filter full).length * 4 < s.N →
      ∃ s', exec half_list s = .ok ((), s') ∧ Rebuilt s s' (s.N / 2) ∧ IsGap s' (s'.N - 1) ∧
        Apart s'.items ∧ s'.N = logN s'.N * 2 ^ height s'.N) := by
  constructor
  · obtain ⟨s', hrun, hreb, hgap, hapart⟩ := double_list_rebuilt hs hn hle hgrp
    have hn' : s'.get_n = s.get_n := hreb.nodes
    have hcount := List.length_filter_le full s.items
    rw [hs.items] at hcount
    obtain ⟨s'', hrun', hreb', -, -⟩ := exec_half_list_rebuilt hreb.sized (by rw [hn']; exact hn)
      (by rw [hn']; exact hle) (by rw [hn', hreb.contents]; exact hgrp) (by rw [hreb.N]; omega)
      (by rw [hreb.contents, hreb.N]; omega)
    refine ⟨s', hrun, hreb, by rw [hreb.N]; exact hgap, hapart, height_eq hreb.sized.pow, s'', hrun', ?_⟩
    refine ⟨?_, hreb'.sized, hreb'.contents.trans hreb.contents, hreb'.nodes.trans hreb.nodes,
      hreb'.lock_bsearch.trans hreb.lock_bsearch, hreb'.first, hreb'.linked, hreb'.ends⟩
    rw [hreb'.N, hreb.N]
    omega
  · intro hfew
    obtain ⟨s', hrun, hreb, hgap, hapart⟩ := exec_half_list_rebuilt hs hn hle hgrp h2 (by omega)
    exact ⟨s', hrun, hreb, by rw [hreb.N]; exact hgap (by omega), hapart (by omega),
      height_eq hreb.sized.pow⟩

theorem resizing_keeps_two_vertices : ∃ s' s'',
    double_list (new_pcsr 2 2 true) = .ok s' ∧ exec half_list s' = .ok ((), s'') ∧
      s''.items.filter full = [sentinel 0, sentinel 1] := by
  have hwf := new_pcsr_well_formed (n := 2) true (by decide) (by decide)
  have hpow := hwf.sized.pow.half
  obtain ⟨⟨s', hrun, -, -, -, -, s'', hrun', hreb⟩, -⟩ := resizing_keeps_the_graph (new_pcsr 2 2 true)
    hwf.sized (by decide +kernel) hwf.n_pos hwf.n_le hwf.arranged.grouped
  refine ⟨s', s'', hrun, hrun', ?_⟩
  rw [hreb.contents, new_pcsr_contents true (by decide)]
  rfl

end packed_csr
