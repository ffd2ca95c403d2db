import Mathlib.Data.Finset.Card
import Mathlib.Logic.Relation
import Mathlib.Tactic.Lemma

/-!
# Marking what can be reached

A node is marked when its bit is set; nodes may share a bit. A node that is marked for the first
time puts its chunk on a stack, and when a chunk is taken off, the nodes it refers to are marked.
-/

namespace Marking

/-- Nodes, the bits that mark them and the chunks behind them. -/
structure Graph (σ β κ : Type) where
  bit : σ → β
  /-- the bits that are set when the node is marked -/
  marks : σ → List β
  chunk : σ → Option κ
  chunkBit : κ → β
  next : κ → List σ
  bit_mem_marks : ∀ s t, bit t ∈ marks s ↔ bit t = bit s
  chunk_iff : ∀ s k, chunk s = some k ↔ bit s = chunkBit k

/-- The bits that are set, and the stack of chunks. -/
structure Marks (β κ : Type) where
  live : List β
  queue : List κ

variable {σ β κ : Type} [DecidableEq β] (G : Graph σ β κ)

namespace Graph

def enqueue (m : Marks β κ) (s : σ) : Marks β κ :=
  if G.bit s ∈ m.live then m
  else ⟨G.marks s ++ m.live, (G.chunk s).toList ++ m.queue⟩

def enqueueAll (m : Marks β κ) (l : List σ) : Marks β κ := l.foldl G.enqueue m

/-- The loop over the stack, for at most `n` chunks. -/
def sweep : ℕ → Marks β κ → Marks β κ
  | 0, m => m
  | n + 1, m =>
    match m.queue with
    | [] => m
    | k :: rest => sweep n (G.enqueueAll ⟨m.live, rest⟩ (G.next k))

/-! ## Reachability -/

omit [DecidableEq β]

/-- The chunk of `s` refers to `t`. -/
def Refers (s t : σ) : Prop := ∃ k, G.chunk s = some k ∧ t ∈ G.next k

def Reaches (roots : List σ) (t : σ) : Prop := ∃ r ∈ roots, Relation.ReflTransGen G.Refers r t

/-- A node that can be reached has the bit of `t`. -/
def Reached (roots : List σ) (t : σ) : Prop := ∃ s, G.Reaches roots s ∧ G.bit t = G.bit s

end Graph

variable {G} {m m' : Marks β κ} {s t : σ} {k : κ} {l l' roots : List σ} {start : List β} {n : ℕ}

omit [DecidableEq β] in
lemma Graph.Reaches.next (hs : G.Reaches roots s) (hk : G.chunk s = some k) (ht : t ∈ G.next k) :
    G.Reaches roots t := by
  obtain ⟨r, hr, hrs⟩ := hs
  exact ⟨r, hr, hrs.tail ⟨k, hk, ht⟩⟩

/-! ## Marking a list of nodes -/

/-- `m'` is `m` after the nodes of `l` are marked. -/
structure Marked (G : Graph σ β κ) (l : List σ) (m m' : Marks β κ) : Prop where
  live_iff : ∀ t, G.bit t ∈ m'.live ↔ G.bit t ∈ m.live ∨ ∃ s ∈ l, G.bit t = G.bit s
  of_queue : ∀ k ∈ m'.queue, k ∈ m.queue ∨ ∃ s ∈ l, G.chunk s = some k
  keeps : ∀ k ∈ m.queue, k ∈ m'.queue
  pushed : ∀ s k, G.chunk s = some k → G.bit s ∈ m'.live → G.bit s ∈ m.live ∨ k ∈ m'.queue

omit [DecidableEq β] in
lemma Marked.refl : Marked G [] m m where
  live_iff t := by simp
  of_queue k hk := .inl hk
  keeps k hk := hk
  pushed s k _ hs := .inl hs

omit [DecidableEq β] in
lemma Marked.trans {m'' : Marks β κ} (h : Marked G l m m') (h' : Marked G l' m' m'') :
    Marked G (l ++ l') m m'' where
  live_iff t := by
    rw [h'.live_iff, h.live_iff, or_assoc]
    simp only [List.mem_append, or_and_right, exists_or]
  of_queue k hk := by
    rcases h'.of_queue k hk with hk | ⟨s, hs, hsk⟩
    · rcases h.of_queue k hk with hk | ⟨s, hs, hsk⟩
      · exact .inl hk
      · exact .inr ⟨s, List.mem_append_left _ hs, hsk⟩
    · exact .inr ⟨s, List.mem_append_right _ hs, hsk⟩
  keeps k hk := h'.keeps k (h.keeps k hk)
  pushed s k hsk hs := by
    rcases h'.pushed s k hsk hs with hs | hk
    · rcases h.pushed s k hsk hs with hs | hk
      · exact .inl hs
      · exact .inr (h'.keeps k hk)
    · exact .inr hk

lemma enqueue_of_mem (h : G.bit s ∈ m.live) : G.enqueue m s = m := if_pos h

lemma enqueue_of_not_mem (h : G.bit s ∉ m.live) :
    G.enqueue m s = ⟨G.marks s ++ m.live, (G.chunk s).toList ++ m.queue⟩ := if_neg h

lemma marked_enqueue : Marked G [s] m (G.enqueue m s) := by
  by_cases h : G.bit s ∈ m.live
  · rw [enqueue_of_mem h]
    constructor
    · intro t
      simp only [List.mem_singleton, exists_eq_left]
      constructor
      · exact .inl
      · rintro (ht | ht)
        · exact ht
        · rw [ht]
          exact h
    · exact fun k hk => .inl hk
    · exact fun k hk => hk
    · exact fun t k _ ht => .inl ht
  · rw [enqueue_of_not_mem h]
    constructor
    · intro t
      simp only [List.mem_append, G.bit_mem_marks, List.mem_singleton, exists_eq_left]
      exact or_comm
    · intro k hk
      rcases List.mem_append.mp hk with hk | hk
      · exact .inr ⟨s, List.mem_singleton_self s, Option.mem_toList.mp hk⟩
      · exact .inl hk
    · exact fun k hk => List.mem_append_right _ hk
    · intro t k htk ht
      rcases List.mem_append.mp ht with ht | ht
      · -- the bit of `t` is that of `s`, so they have one chunk
        have hbit := (G.bit_mem_marks s t).mp ht
        have hsk : G.chunk s = some k := by
          rw [G.chunk_iff, ← hbit]
          exact (G.chunk_iff t k).mp htk
        apply Or.inr
        apply List.mem_append_left
        rw [hsk]
        exact List.mem_singleton_self k
      · exact .inl ht

lemma marked_enqueueAll : Marked G l m (G.enqueueAll m l) := by
  induction l generalizing m with
  | nil => exact .refl
  | cons s l ih => exact marked_enqueue.trans ih

/-! ## The invariant of the loop -/

/-- What holds between two chunks: what is marked was there or can be reached, and a marked node's
chunk is on the stack or has been followed. -/
structure Invariant (G : Graph σ β κ) (start : List β) (roots : List σ) (m : Marks β κ) : Prop where
  sound : ∀ t, G.bit t ∈ m.live → G.bit t ∈ start ∨ G.Reached roots t
  queued : ∀ k ∈ m.queue, ∃ s, G.Reaches roots s ∧ G.chunk s = some k
  kept : ∀ t, G.bit t ∈ start → G.bit t ∈ m.live
  root : ∀ r ∈ roots, G.bit r ∈ m.live
  followed : ∀ s k, G.chunk s = some k → G.bit s ∈ m.live →
    k ∈ m.queue ∨ ∀ t ∈ G.next k, G.bit t ∈ m.live

/-- At the start no marked bit has a chunk behind it. -/
lemma invariant_enqueueAll (hstart : ∀ s k, G.chunk s = some k → G.bit s ∉ start) :
    Invariant G start roots (G.enqueueAll ⟨start, []⟩ roots) := by
  have h : Marked G roots ⟨start, []⟩ (G.enqueueAll ⟨start, []⟩ roots) := marked_enqueueAll
  constructor
  · intro t ht
    rcases (h.live_iff t).mp ht with ht | ⟨s, hs, hst⟩
    · exact .inl ht
    · exact .inr ⟨s, ⟨s, hs, .refl⟩, hst⟩
  · intro k hk
    rcases h.of_queue k hk with hk | ⟨s, hs, hsk⟩
    · exact absurd hk List.not_mem_nil
    · exact ⟨s, ⟨s, hs, .refl⟩, hsk⟩
  · exact fun t ht => (h.live_iff t).mpr (.inl ht)
  · exact fun r hr => (h.live_iff r).mpr (.inr ⟨r, hr, rfl⟩)
  · intro s k hsk hs
    rcases h.pushed s k hsk hs with hs | hk
    · exact absurd hs (hstart s k hsk)
    · exact .inl hk

/-- Following the chunk on top of the stack keeps the invariant. -/
lemma Invariant.pop {rest : List κ} (h : Invariant G start roots m) (hq : m.queue = k :: rest) :
    Invariant G start roots (G.enqueueAll ⟨m.live, rest⟩ (G.next k)) := by
  have hm : Marked G (G.next k) ⟨m.live, rest⟩ (G.enqueueAll ⟨m.live, rest⟩ (G.next k)) :=
    marked_enqueueAll
  obtain ⟨s, hs, hsk⟩ := h.queued k (hq ▸ List.mem_cons_self)
  constructor
  · intro t ht
    rcases (hm.live_iff t).mp ht with ht | ⟨u, hu, htu⟩
    · exact h.sound t ht
    · exact .inr ⟨u, hs.next hsk hu, htu⟩
  · intro j hj
    rcases hm.of_queue j hj with hj | ⟨u, hu, huj⟩
    · exact h.queued j (hq ▸ List.mem_cons_of_mem k hj)
    · exact ⟨u, hs.next hsk hu, huj⟩
  · exact fun t ht => (hm.live_iff t).mpr (.inl (h.kept t ht))
  · exact fun r hr => (hm.live_iff r).mpr (.inl (h.root r hr))
  · intro t j htj ht
    rcases hm.pushed t j htj ht with ht | hj
    · rcases h.followed t j htj ht with hj | hnext
      · rw [hq] at hj
        -- the chunk on top is followed now, the others stay on the stack
        rcases List.mem_cons.mp hj with rfl | hj
        · exact .inr fun u hu => (hm.live_iff u).mpr (.inr ⟨u, hu, rfl⟩)
        · exact .inl (hm.keeps j hj)
      · exact .inr fun u hu => (hm.live_iff u).mpr (.inl (hnext u hu))
    · exact .inl hj

lemma Invariant.sweep (h : Invariant G start roots m) : Invariant G start roots (G.sweep n m) := by
  induction n generalizing m with
  | zero => exact h
  | succ n ih =>
    cases hq : m.queue with
    | nil => simpa [Graph.sweep, hq] using h
    | cons k rest => simpa [Graph.sweep, hq] using ih (h.pop hq)

omit [DecidableEq β] in
/-- With the stack empty, what is marked is what was there and what can be reached. -/
lemma Invariant.bit_mem_iff (h : Invariant G start roots m) (hq : m.queue = []) :
    G.bit t ∈ m.live ↔ G.bit t ∈ start ∨ G.Reached roots t := by
  constructor
  · exact h.sound t
  · rintro (ht | ⟨s, ⟨r, hr, hrs⟩, hts⟩)
    · exact h.kept t ht
    · rw [hts]
      -- along the path: a marked node's chunk is not on the stack, so it has been followed
      clear hts
      induction hrs with
      | refl => exact h.root r hr
      | tail _ hstep ih =>
        obtain ⟨k, hsk, hk⟩ := hstep
        rcases h.followed _ k hsk ih with hmem | hnext
        · rw [hq] at hmem
          exact absurd hmem List.not_mem_nil
        · exact hnext _ hk

/-! ## The loop ends -/

variable {chunks : Finset κ}

/-- The chunks on the stack and those that are not marked yet. -/
def Graph.pending (G : Graph σ β κ) (chunks : Finset κ) (m : Marks β κ) : ℕ :=
  m.queue.length + (chunks.filter fun k => G.chunkBit k ∉ m.live).card

lemma pending_enqueue (hall : ∀ s k, G.chunk s = some k → k ∈ chunks) :
    G.pending chunks (G.enqueue m s) ≤ G.pending chunks m := by
  by_cases h : G.bit s ∈ m.live
  · rw [enqueue_of_mem h]
  rw [enqueue_of_not_mem h]
  unfold Graph.pending
  cases hk : G.chunk s with
  | none =>
    apply Nat.add_le_add_left
    apply Finset.card_le_card
    intro k hmem
    simp only [Finset.mem_filter, List.mem_append, not_or] at hmem ⊢
    exact ⟨hmem.1, hmem.2.2⟩
  | some k =>
    have hbit : G.bit s = G.chunkBit k := (G.chunk_iff s k).mp hk
    -- the chunk moves from the unmarked ones to the stack
    have hlt : (chunks.filter fun j => G.chunkBit j ∉ G.marks s ++ m.live).card <
        (chunks.filter fun j => G.chunkBit j ∉ m.live).card := by
      apply Finset.card_lt_card
      rw [Finset.ssubset_iff_of_subset]
      · have hself : G.chunkBit k ∈ G.marks s := by
          rw [← hbit, G.bit_mem_marks]
        refine ⟨k, ?_, ?_⟩
        · rw [Finset.mem_filter, ← hbit]
          exact ⟨hall s k hk, h⟩
        · rw [Finset.mem_filter]
          exact fun hmem => hmem.2 (List.mem_append_left _ hself)
      · intro j hmem
        simp only [Finset.mem_filter, List.mem_append, not_or] at hmem ⊢
        exact ⟨hmem.1, hmem.2.2⟩
    simp only [Option.toList_some, List.singleton_append, List.length_cons]
    omega

lemma pending_enqueueAll (hall : ∀ s k, G.chunk s = some k → k ∈ chunks) :
    G.pending chunks (G.enqueueAll m l) ≤ G.pending chunks m := by
  induction l generalizing m with
  | nil => exact le_rfl
  | cons s l ih => exact ih.trans (pending_enqueue hall)

/-- Each round takes a chunk off, and a chunk is put on the stack once. -/
lemma sweep_queue (hall : ∀ s k, G.chunk s = some k → k ∈ chunks)
    (hn : G.pending chunks m ≤ n) : (G.sweep n m).queue = [] := by
  induction n generalizing m with
  | zero =>
    have hlen : m.queue.length = 0 := by
      unfold Graph.pending at hn
      omega
    exact List.length_eq_zero_iff.mp hlen
  | succ n ih =>
    cases hq : m.queue with
    | nil => simp [Graph.sweep, hq]
    | cons k rest =>
      -- a round uses up the chunk that it takes off, and marking adds nothing
      have hpop : G.pending chunks ⟨m.live, rest⟩ + 1 = G.pending chunks m := by
        unfold Graph.pending
        rw [hq, List.length_cons]
        exact Nat.add_right_comm _ _ _
      have hle := pending_enqueueAll (l := G.next k) (m := ⟨m.live, rest⟩) hall
      simp only [Graph.sweep, hq]
      apply ih
      omega

end Marking
