import UosioCdt.Malloc.ReallocTheorems
import UosioCdt.Malloc.RunTheorems

/-!
# `realloc` is safe as long as it does not overrun

Runs with `realloc`: as long as no request overruns its heap or wraps the sum of `malloc`, the blocks
of the program stay apart and a reallocated one has the bytes of the old one.
-/

namespace UosioCdt.Malloc

open Tiling

variable {env : Env} {s : St} {ops : List Op} {k p : ℕ}

/-! ## Safety -/

/-- The blocks of the program lie in the heaps and do not overlap. -/
structure LiveSafe (s : St) : Prop where
  inside : ∀ a ∈ s.live, ∃ i, (s.mgr.availableHeaps i).isInit ∧
    (s.mgr.availableHeaps i).heap ≤ a.ptr ∧
    a.ptr + a.len ≤ (s.mgr.availableHeaps i).heap + (s.mgr.availableHeaps i).heapSize
  apart : s.live.Pairwise fun a c => a.ptr + a.len ≤ c.ptr ∨ c.ptr + c.len ≤ a.ptr

/-- A `realloc` that succeeds keeps the bytes that both sizes have. -/
def KeepsBytes (env : Env) (s : St) : Op → Prop
  | .realloc p k => ∀ q mgr, s.mgr.realloc env p k = .ok (some q, mgr) →
    ∀ a ∈ s.live, a.ptr = p → ∀ x < min a.len k, mgr.mem (q + x) = s.mgr.mem (p + x)
  | _ => True

/-- Every call of the run returns, with the blocks apart before and behind it and the bytes kept. -/
def AlwaysKept (env : Env) : St → List Op → Prop
  | s, [] => LiveSafe s
  | s, op :: ops => LiveSafe s ∧ KeepsBytes env s op ∧
    ∃ t, s.step env op = .ok t ∧ AlwaysKept env t ops

/-- The request neither overruns its heap nor wraps the sum of `malloc`. -/
def RequestOk (s : St) : Op → Prop
  | .malloc k => NoWrap s.mgr k
  | .realloc p k => ReallocOk s.mgr p k
  | _ => True

lemma Safe.liveSafe (h : Safe s) : LiveSafe s := by
  obtain ⟨bs, hsafe⟩ := h
  exact ⟨hsafe.inside, hsafe.apart⟩

/-! ## Steps -/

/-- A used block takes the place of another. -/
lemma Tracks.move {live : List Alloc} {n n' : ℕ} {bs bs' : ℕ → List Block} {b d : Block}
    (ht : Tracks live n bs) (hlen : k ≤ d.size)
    (hother : ∀ c, UsedIn n bs c → c ≠ b → c.ptr ≠ b.ptr ∧ c.ptr ≠ d.ptr)
    (hiff : ∀ c, UsedIn n' bs' c ↔ (UsedIn n bs c ∧ c ≠ b) ∨ c = d) :
    Tracks (⟨d.ptr, k⟩ :: live.filter fun a => a.ptr ≠ b.ptr) n' bs' := by
  have hkept : ∀ a ∈ live.filter fun a => a.ptr ≠ b.ptr,
      ∃ c, UsedIn n bs c ∧ c ≠ b ∧ c.ptr = a.ptr ∧ a.len ≤ c.size := by
    intro a ha
    rw [List.mem_filter, decide_eq_true_iff] at ha
    obtain ⟨c, hc, hptr, hle⟩ := ht.used a ha.1
    refine ⟨c, hc, ?_, hptr, hle⟩
    rintro rfl
    exact ha.2 hptr.symm
  constructor
  case used =>
    intro a ha
    rcases List.mem_cons.mp ha with rfl | ha
    · exact ⟨d, (hiff d).mpr (.inr rfl), rfl, hlen⟩
    · obtain ⟨c, hc, hne, hptr, hle⟩ := hkept a ha
      exact ⟨c, (hiff c).mpr (.inl ⟨hc, hne⟩), hptr, hle⟩
  case complete =>
    intro c hc
    rcases (hiff c).mp hc with ⟨hc, hne⟩ | rfl
    · obtain ⟨a, ha, hptr⟩ := ht.complete c hc
      refine ⟨a, List.mem_cons_of_mem _ ?_, hptr⟩
      rw [List.mem_filter, decide_eq_true_iff, hptr]
      exact ⟨ha, (hother c hc hne).1⟩
    · exact ⟨_, List.mem_cons_self, rfl⟩
  case nodup =>
    rw [List.map_cons, List.nodup_cons]
    refine ⟨fun hmem => ?_, ht.nodup.sublist ((List.filter_sublist).map _)⟩
    obtain ⟨a, ha, hptr⟩ := List.mem_map.mp hmem
    obtain ⟨c, hc, hne, hcptr, -⟩ := hkept a ha
    exact (hother c hc hne).2 (hcptr.trans hptr)

/-- `realloc(p, k)` keeps the invariant and the bytes. -/
lemma Inv.realloc (henv : env.Ok) (h : Inv env s) (hp : ∃ a ∈ s.live, a.ptr = p) (hpos : 0 < k)
    (hk : k ≤ 2 ^ 30) (hok : ReallocOk s.mgr p k) :
    ∃ t, s.step env (.realloc p k) = .ok t ∧ Inv env t ∧ KeepsBytes env s (.realloc p k) := by
  obtain ⟨n, bs, hr, hphase, ht⟩ := h
  obtain ⟨a, ha, rfl⟩ := hp
  obtain ⟨b, hb, hptr, hlen⟩ := ht.used a ha
  rw [← hptr] at hok ⊢
  obtain ⟨⟨r, mgr⟩, n', bs', heq, hres⟩ := hr.realloc henv hphase hb hpos hk hok
  obtain ⟨-, hle, -⟩ := adjustToMemBlock_spec (k := k) (by omega)
  have hstep : s.step env (.realloc b.ptr k) = .ok (s.realloced b.ptr k (r, mgr)) := by
    show (do return s.realloced b.ptr k (← s.mgr.realloc env b.ptr k) : Except Fault St) = _
    rw [heq]
    rfl
  refine ⟨_, hstep, ?_, ?_⟩
  · cases r with
    | none => exact ⟨n', bs', hres.ready, hres.phase, ht.congr (hres.stays rfl)⟩
    | some q =>
      obtain ⟨d, rfl, hsize, hfresh, hiff, -⟩ := hres.moves q rfl
      refine ⟨n', bs', hres.ready, hres.phase, ht.move (by omega) (fun c hc hne => ?_) hiff⟩
      exact ⟨fun hsame => hne (hr.eq_of_ptr_eq henv hc hb hsame), hfresh c hc hne⟩
  · intro q mgr' hq c hc hcptr x hx
    rw [heq] at hq
    cases hq
    obtain ⟨d, -, -, -, -, hbytes⟩ := hres.moves q rfl
    obtain ⟨b', hb', hptr', hlen'⟩ := ht.used c hc
    have hsame := hr.eq_of_ptr_eq henv hb' hb (hptr'.trans hcptr)
    rw [hsame] at hlen'
    exact hbytes x (by omega)

lemma Inv.request (henv : env.Ok) (h : Inv env s) {op : Op} (hvalid : op.Valid s)
    (hok : RequestOk s op) : KeepsBytes env s op ∧ ∃ t, s.step env op = .ok t ∧ Inv env t := by
  cases op with
  | malloc k => exact ⟨trivial, h.malloc henv hvalid.1 hvalid.2 hok⟩
  | free p => exact ⟨trivial, h.free henv hvalid⟩
  | realloc p k =>
    obtain ⟨t, ht, hinv, hbytes⟩ := h.realloc henv hvalid.1 hvalid.2.1 hvalid.2.2 hok
    exact ⟨hbytes, t, ht, hinv⟩
  | write x v => exact ⟨trivial, h.write henv hvalid⟩

/-! ## Runs -/

lemma Inv.alwaysKept (henv : env.Ok) (h : Inv env s)
    (hvalid : Along env (fun s op => op.Valid s) s ops) (hok : Along env RequestOk s ops) :
    AlwaysKept env s ops := by
  induction ops generalizing s with
  | nil => exact (h.safe henv).liveSafe
  | cons op ops ih =>
    obtain ⟨hop, hrest⟩ := hvalid
    obtain ⟨hreq, hnext⟩ := hok
    obtain ⟨hbytes, t, ht, hinv⟩ := h.request henv hop hreq
    exact ⟨(h.safe henv).liveSafe, hbytes, t, ht, ih hinv (hrest t ht) (hnext t ht)⟩

/-- From the first call on, the blocks stay apart and keep their bytes as long as no request overruns
or wraps. -/
theorem alwaysKept_of_requestOk (henv : env.Ok)
    (hvalid : Along env (fun s op => op.Valid s) env.start ops)
    (hok : Along env RequestOk env.start ops) : AlwaysKept env env.start ops :=
  (inv_start henv).alwaysKept henv hvalid hok

instance (m : Mem) (h : Heap) (p size : ℕ) : Decidable (FitsInPlace m h p size) :=
  inferInstanceAs (Decidable (_ ∨ _ ∨ _))

instance (m : Mem) (h : Heap) (p size : ℕ) : Decidable (Overruns m h p size) :=
  inferInstanceAs (Decidable (_ ∨ _))

instance (s : Manager) (k : ℕ) : Decidable (NoWrap s k) := inferInstanceAs (Decidable (_ < _))

instance (s : Manager) (p k : ℕ) : Decidable (ReallocOk s p k) :=
  inferInstanceAs (Decidable (∀ i ∈ s.findHeap p, _ ∧ _))

instance (s : St) : (op : Op) → Decidable (RequestOk s op)
  | .malloc k => inferInstanceAs (Decidable (NoWrap s.mgr k))
  | .realloc p k => inferInstanceAs (Decidable (ReallocOk s.mgr p k))
  | .free _ => .isTrue trivial
  | .write _ _ => .isTrue trivial

/-- The last block is made larger. -/
theorem wide_alwaysKept :
    AlwaysKept Env.wide Env.wide.start [.malloc 8, .realloc 1028 100, .malloc 8] :=
  alwaysKept_of_requestOk Env.wide_ok (by decide +kernel) (by decide +kernel)

lemma AlwaysKept.liveSafe {t : St} (h : AlwaysKept env s ops) (hrun : s.run env ops = .ok t) :
    LiveSafe t := by
  induction ops generalizing s with
  | nil =>
    cases hrun
    exact h
  | cons op ops ih =>
    obtain ⟨-, -, u, hu, hrest⟩ := h
    have hbind : s.run env (op :: ops) = u.run env ops := by
      rw [St.run, hu]
      rfl
    exact ih hrest (hbind ▸ hrun)

/-- The first block is made larger over the zeros behind the offset, and the next `malloc` hands them
out once more. -/
theorem wide_not_alwaysKept : ∃ env ops, Env.Ok env ∧
    Along env (fun s op => op.Valid s) env.start ops ∧ ¬ AlwaysKept env env.start ops := by
  refine ⟨Env.wide, [.malloc 4, .malloc 4, .free 1036, .realloc 1028 100, .malloc 4], Env.wide_ok,
    by decide +kernel, fun hkept => ?_⟩
  have hlive : (Env.wide.start.run Env.wide
      [.malloc 4, .malloc 4, .free 1036, .realloc 1028 100, .malloc 4]).map St.live =
        .ok [⟨1044, 4⟩, ⟨1028, 100⟩] := by
    decide +kernel
  cases hrun : Env.wide.start.run Env.wide
      [.malloc 4, .malloc 4, .free 1036, .realloc 1028 100, .malloc 4] with
  | error e =>
    rw [hrun] at hlive
    cases hlive
  | ok t =>
    rw [hrun] at hlive
    have hsafe := hkept.liveSafe hrun
    have happart := hsafe.apart
    rw [show t.live = [⟨1044, 4⟩, ⟨1028, 100⟩] from Except.ok.inj hlive] at happart
    revert happart
    decide

end UosioCdt.Malloc
