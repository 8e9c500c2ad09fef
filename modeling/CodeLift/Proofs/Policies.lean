import CodeLift.Proofs.Coverage

/-!
# More calls that return, more code

If every call that returns under one policy returns under another one, then all that is found under
the first is found under the second: instructions, places where blocks begin, and edges. The edges
are compared by the addresses that they join, since the blocks are numbered anew.

Two whole discoveries are compared here, but neither is followed. Code that can be reached stays so
when more calls return, and so do the leaders; and an exit of a block is still an exit of the block
that its instruction ends, because blocks still begin where the exit leads.
-/

namespace CodeLift

/-! ## Policies -/

/-- Every call that returns under `p` returns under `q`. -/
def ReturnPolicy.Below (p q : ReturnPolicy) : Prop :=
  ∀ site callee hint, p site callee hint = true → q site callee hint = true

theorem ReturnPolicy.noReturn_below {few many : List Address} (h : few ⊆ many) :
    (noReturn many).Below (noReturn few) := by
  intro site callee hint hret
  cases callee with
  | none => rfl
  | some addr =>
    have hmany : addr ∉ many := by simpa [noReturn] using hret
    have hfew : addr ∉ few := fun hm => hmany (h hm)
    simpa [noReturn] using hfew

variable {decode : Address → Except Fault Decoded} {p q : ReturnPolicy} {size : Nat}
  {entry a c : Address}

theorem ReturnPolicy.Below.exitsFor_subset (h : p.Below q) (flow : ControlFlow)
    (pc next : Address) : exitsFor p flow pc next ⊆ exitsFor q flow pc next := by
  -- only a call asks the policy, and then for the exit behind it
  have honward : ∀ (callee : Option Address) (hint : Option Bool) (first onward : Exit),
      (first :: if p pc callee hint then [onward] else []) ⊆
        first :: if q pc callee hint then [onward] else [] := by
    intro callee hint first onward x hx
    rcases List.mem_cons.1 hx with rfl | hx
    · exact List.mem_cons_self
    · by_cases hp : p pc callee hint = true
      · rw [if_pos hp] at hx
        rw [if_pos (h pc callee hint hp)]
        exact List.mem_cons_of_mem _ hx
      · rw [if_neg hp] at hx
        exact absurd hx List.not_mem_nil
  cases flow with
  | call target returns => exact honward (some target) returns _ _
  | indirectCall => exact honward none none _ _
  | jump target => exact List.Subset.refl _
  | condJump target => exact List.Subset.refl _
  | ret => exact List.Subset.refl _
  | indirectJump => exact List.Subset.refl _
  | halt => exact List.Subset.refl _

/-! ## Code that can be reached -/

theorem Transfers.mono (h : p.Below q) (ht : Transfers decode p a c) : Transfers decode q a c := by
  obtain ⟨i, flow, next, x, hi, hflow, hn, hx, hc⟩ := ht
  exact ⟨i, flow, next, x, hi, hflow, hn, h.exitsFor_subset flow a next hx, hc⟩

theorem Reach.mono (h : p.Below q) (ha : Reach decode p size entry a) :
    Reach decode q size entry a := by
  induction ha with
  | entry => exact .entry
  | falls _ hfall ih => exact .falls ih hfall
  | transfers _ htrans hlt ih => exact .transfers ih (htrans.mono h) hlt

theorem Targeted.mono (h : p.Below q) (hc : Targeted decode p size entry c) :
    Targeted decode q size entry c := by
  obtain ⟨a, ha, htrans⟩ := hc
  exact ⟨a, ha.mono h, htrans.mono h⟩

theorem Before.mono (h : p.Below q) : Before decode p size entry c ⊆ Before decode q size entry c :=
  fun _ ha => ⟨ha.1.mono h, ha.2⟩

theorem leaders_mono (h : p.Below q) :
    leaders decode p size entry ⊆ leaders decode q size entry := by
  intro c hc
  rw [mem_leaders] at hc ⊢
  rcases hc with he | ⟨hlt, ht⟩ | hb | ⟨hle, ht, hb⟩
  · exact .inl he
  · exact .inr (.inl ⟨hlt, ht.mono h⟩)
  · exact .inr (.inr (.inl (hb.mono (Before.mono h))))
  · exact .inr (.inr (.inr ⟨hle, ht.mono h, hb.mono (Before.mono h)⟩))

/-! ## Edges by address -/

namespace FlowGraph

/-- The edge `e` of the block `b` joins what the exit `x` joins: it leaves the instruction `source`,
the last one of `b`, and leads to the block that begins at the target, or to nowhere if there is no
target. -/
def Joins (g : FlowGraph) (b : Block) (e : Edge) (x : Exit) : Prop :=
  b.lastInsn? = some x.source ∧ e.kind = x.kind ∧
    match e.target with
    | none => x.target = none
    | some id => ∃ c, g.blocks[id]? = some c ∧ x.target = some c.entry

/-- All that is in the graph `g` is in the graph `h`, whatever the numbers of the blocks. -/
structure Within (g h : FlowGraph) : Prop where
  /-- Every instruction is there. -/
  insns : ∀ b ∈ g.blocks, ∀ r ∈ b.insns, ∃ c ∈ h.blocks, ∃ s ∈ c.insns, s.addr = r.addr
  /-- A block begins wherever one does. -/
  entries : ∀ b ∈ g.blocks, ∃ c ∈ h.blocks, c.entry = b.entry
  /-- Every edge is there. -/
  edges : ∀ b ∈ g.blocks, ∀ e ∈ b.edges, ∃ x, g.Joins b e x ∧
    ∃ c ∈ h.blocks, ∃ f ∈ c.edges, h.Joins c f x

namespace Draws

variable {g : FlowGraph} {vs : List (Stretch decode)}

/-- An edge is an exit of a stretch that leads to where a stretch begins, if anywhere. -/
theorem exists_exit (hd : g.Draws p vs) {b : Block} (hb : b ∈ g.blocks) {e : Edge}
    (he : e ∈ b.edges) :
    ∃ x, g.Joins b e x ∧ Leaves p vs x ∧ ∀ c, x.target = some c → Begins vs c := by
  obtain ⟨t, ht, notes, rfl⟩ := hd.blocks.exists_stretch hb
  obtain ⟨x, hx, hxe⟩ := List.mem_filterMap.1 he
  have hlast : t.block.lastInsn? = some x.source :=
    t.block_lastInsn?.trans (Stretch.of_mem_exits hx).1
  unfold Exit.edge? at hxe
  split at hxe
  · next hnone =>
    cases hxe
    refine ⟨x, ⟨hlast, rfl, hnone⟩, ⟨t, ht, hx⟩, ?_⟩
    intro c hc
    cases hnone.symm.trans hc
  · next c hc =>
    obtain ⟨id, hid, rfl⟩ := Option.map_eq_some_iff.1 hxe
    have hbegins : Begins vs c :=
      begins_iff_mem.2 (List.isSome_idxOf?.1 (by rw [hid]; rfl))
    obtain ⟨id', u, hid', hu, rfl⟩ := hd.exists_block_at hbegins
    cases hid.symm.trans hid'
    refine ⟨x, ⟨hlast, rfl, u, hu, hc⟩, ⟨t, ht, hx⟩, ?_⟩
    intro c hc'
    cases hc.symm.trans hc'
    exact hbegins

/-- Conversely, such an exit is an edge. -/
theorem exists_edge (hd : g.Draws p vs) {x : Exit} (hx : Leaves p vs x)
    (hc : ∀ c, x.target = some c → Begins vs c) : ∃ b ∈ g.blocks, ∃ e ∈ b.edges, g.Joins b e x := by
  obtain ⟨t, ht, hx⟩ := hx
  -- notes play no part in it
  refine (hd.exists_iff (P := fun b => ∃ e ∈ b.edges, g.Joins b e x) fun _ _ => Iff.rfl).2
    ⟨t, ht, ?_⟩
  have hlast : (t.drawn p (vs.map Stretch.entry)).lastInsn? = some x.source :=
    t.block_lastInsn?.trans (Stretch.of_mem_exits hx).1
  cases htarget : x.target with
  | none =>
    refine ⟨⟨x.kind, none⟩, List.mem_filterMap.2 ⟨x, hx, ?_⟩, hlast, rfl, htarget⟩
    simp only [Exit.edge?, htarget]
  | some c =>
    obtain ⟨id, u, hid, hu, rfl⟩ := hd.exists_block_at (hc c htarget)
    refine ⟨⟨x.kind, some id⟩, List.mem_filterMap.2 ⟨x, hx, ?_⟩, hlast, rfl, u, hu, htarget⟩
    simp only [Exit.edge?, htarget, hid, Option.map_some]

end Draws

end FlowGraph

/-! ## Two policies -/

section

variable {m n : Nat} {vs us : List (Stretch decode)}

theorem Complete.begins_mono (hf : Fits decode size) (h : p.Below q) (hm : size < m)
    (hn : size < n) (hvs : Complete ⟨decode, p, m⟩ size entry vs)
    (hus : Complete ⟨decode, q, n⟩ size entry us) (hc : Begins vs c) : Begins us c :=
  (hus.begins_iff hf hn).2 (leaders_mono h ((hvs.begins_iff hf hm).1 hc))

/-- An exit that leads to where a block begins stays one. -/
theorem Complete.leaves_mono (hf : Fits decode size) (h : p.Below q)
    (hvs : Complete ⟨decode, p, m⟩ size entry vs) (hus : Complete ⟨decode, q, n⟩ size entry us)
    {x : Exit} (hx : Leaves p vs x) (hc : ∀ c, x.target = some c → Begins us c) :
    Leaves q us x := by
  obtain ⟨t, ht, hx⟩ := hx
  obtain ⟨hlast, hcases⟩ := Stretch.of_mem_exits hx
  have hreach : Reach decode q size entry x.source :=
    (hvs.reach ⟨t, ht, Stretch.last_mem_held hlast⟩).mono h
  rcases hcases with ⟨i, flow, hi, hflow, hnext, hmem⟩ | ⟨-, hfall, he⟩
  · -- a transfer ends its stretch under any policy
    obtain ⟨u, hu, hheld⟩ := hus.known_of_decodes hf hreach hi
    obtain ⟨hmi, haddr⟩ := Stretch.mem_insns hheld hi
    obtain ⟨-, hstop, hexits⟩ := Stretch.exits_of_flow q hmi hflow
    have hsame : t.stop = u.stop := Except.ok.inj (hnext.symm.trans hstop)
    refine ⟨u, hu, ?_⟩
    rw [hexits, haddr, ← hsame]
    exact h.exitsFor_subset flow _ _ hmem
  · -- control falls to where a block begins, so the stretch is open there
    obtain ⟨i, hi⟩ := hfall.exists_insn
    obtain ⟨u, hu, hheld⟩ := hus.known_of_decodes hf hreach hi
    obtain ⟨w, hw, hentry⟩ := hc t.stop (by rw [he])
    rcases Stretch.falls_cases hheld hfall with ⟨hin, hne⟩ | ⟨ho, hlast', hstop⟩
    · obtain rfl := hus.apart.unique hw hu (hentry ▸ w.entry_mem_held) hin
      exact absurd hentry.symm hne
    · obtain ⟨b, hb, -, hexits⟩ := ho.exits_eq q
      cases hlast'.symm.trans hb
      refine ⟨u, hu, ?_⟩
      rw [hexits, hstop, ← he]
      exact List.mem_singleton_self x

theorem Complete.within (hf : Fits decode size) (h : p.Below q) (hm : size < m) (hn : size < n)
    (hvs : Complete ⟨decode, p, m⟩ size entry vs) (hus : Complete ⟨decode, q, n⟩ size entry us)
    {g k : FlowGraph} (hg : g.Draws p vs) (hk : k.Draws q us) : g.Within k := by
  have hbegins : ∀ {c}, Begins vs c → Begins us c := fun hc => hvs.begins_mono hf h hm hn hus hc
  refine ⟨?_, ?_, ?_⟩
  · -- insns
    intro b hb r hr
    obtain ⟨t, ht, notes, rfl⟩ := hg.blocks.exists_stretch hb
    have haddr : r.addr ∈ t.block.insns.map (·.addr) := List.mem_map.2 ⟨r, hr, rfl⟩
    rw [t.map_addr_block_insns] at haddr
    obtain ⟨i, hi, he⟩ := List.mem_map.1 haddr
    obtain ⟨hreach, hd⟩ := (hvs.mem_insns_iff hf).1 ⟨t, ht, hi⟩
    obtain ⟨u, hu, hiu⟩ := (hus.mem_insns_iff hf).2 ⟨hreach.mono h, hd⟩
    refine (hk.exists_iff (P := fun c => ∃ s ∈ c.insns, s.addr = r.addr) fun _ _ => Iff.rfl).2
      ⟨u, hu, ?_⟩
    have hmem : r.addr ∈ u.block.insns.map (·.addr) := by
      rw [u.map_addr_block_insns, ← he]
      exact List.mem_map.2 ⟨i, hiu, rfl⟩
    exact List.mem_map.1 hmem
  · -- entries
    intro b hb
    obtain ⟨t, ht, notes, rfl⟩ := hg.blocks.exists_stretch hb
    obtain ⟨id, c, -, hid, he⟩ := hk.exists_block_at (hbegins ⟨t, ht, rfl⟩)
    exact ⟨c, Array.mem_of_getElem? hid, he⟩
  · -- edges
    intro b hb e he
    obtain ⟨x, hjoins, hleaves, htarget⟩ := hg.exists_exit hb he
    have htarget' : ∀ c, x.target = some c → Begins us c := fun c hc => hbegins (htarget c hc)
    exact ⟨x, hjoins, hk.exists_edge (hvs.leaves_mono hf h hus hleaves htarget') htarget'⟩

end

namespace Sample

/-- A call of the last byte, the step behind it, and a return, which is also what is called. -/
def calls : List (Address × Decoded) :=
  [(0, .ok { addr := 0, size := 1, ops := [.control "call" (.call 2 none)], bytes := [0] }),
    (1, .ok { addr := 1, size := 1, ops := [{ opcode := "step" }], bytes := [1] }),
    (2, .ok { addr := 2, size := 1, ops := [.control "ret" .ret], bytes := [2] })]

def caller : Lifter := { decoder := .scripted calls }

theorem caller_conforms : Conforms (caller.decoder.decodeOne image) image.size :=
  Decoder.scripted_conforms (by decide)

end Sample

namespace Lifter

/-- The lifter with another policy. -/
def withPolicy (l : Lifter) (policy : ReturnPolicy) : Lifter := { l with policy }

/-- The lifter finds all under the policy `q` that it finds under the policy `p`. -/
def FindsWithin (l : Lifter) (image : ByteArray) (entry : Address) (p q : ReturnPolicy) : Prop :=
  ∃ r u, (l.withPolicy p).lift image entry = .ok r ∧ (l.withPolicy q).lift image entry = .ok u ∧
    r.graph.Within u.graph

variable {l : Lifter} {image : ByteArray}

/-- What is lifted grows with the policy, if no block can be full. Listing more callees that do not
return only takes code and edges away. -/
theorem lift_mono_policy (hfit : image.size < Address.count)
    (hc : Conforms (l.decoder.decodeOne image) image.size)
    (hlim : image.size < l.config.maxBlockInsns) (entry : Address) :
    (∀ p q : ReturnPolicy, p.Below q → l.FindsWithin image entry p q) ∧
      ∀ few many : List Address, few ⊆ many →
        l.FindsWithin image entry (.noReturn many) (.noReturn few) := by
  have hmono : ∀ p q : ReturnPolicy, p.Below q → l.FindsWithin image entry p q := by
    intro p q h
    obtain ⟨r, vs, hr, hvs, -, -, hg⟩ := (l.withPolicy p).lift_spec hfit hc entry
    obtain ⟨u, us, hu, hus, -, -, hk⟩ := (l.withPolicy q).lift_spec hfit hc entry
    exact ⟨r, u, hr, hu, Complete.within hc.toFits h hlim hlim hvs hus hg hk⟩
  exact ⟨hmono, fun few many h => hmono _ _ (ReturnPolicy.noReturn_below h)⟩

/-- If the callee does not return, then less is found. -/
theorem lift_mono_policy_sample :
    Sample.caller.FindsWithin Sample.image 0 (.noReturn [2]) (.noReturn []) :=
  (lift_mono_policy (by decide) Sample.caller_conforms (by decide) 0).2 [] [2] (by decide)

end Lifter

end CodeLift
