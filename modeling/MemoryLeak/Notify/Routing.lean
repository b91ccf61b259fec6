import MemoryLeak.Notify.Drain

/-!
# What a drain delivers

Whom the datagrams of one drain go to and what they carry, and which of the
messages taken get sent at all. Both hold under a condition on the messages up to
the first one that ends the loop, and that condition is exact.
-/
namespace MemoryLeak.Notify
open MemoryLeak.CBytes MemoryLeak.Runs

/-- Some item of the table, in whatever bucket, is registered for the id. -/
def RegisteredFor (T : Table) (iid : Bytes) (it : HashItem) : Prop :=
  ∃ i, it ∈ (T i).group ∧ strncmp lenDevid iid (devId it.msg) = 0

/-- The datagram is its own message, encoded, and goes to a registered item of
its target. -/
def Routed (T : Table) (w : ℕ → Calls) (chain : List Taken) (s : Sent) : Prop :=
  ∃ q, chain[s.index]? = some q ∧ s.item = q.item ∧ built (w s.index) q = some s.payload ∧
    ∃ iid it, destId q.mem = some iid ∧ RegisteredFor T iid it ∧ it.ipv4 = s.ipv4

theorem target_registered {T : Table} {q : Taken} {ipv4 : SockAddrIn}
    (h : target T q = some ipv4) :
    ∃ iid it, destId q.mem = some iid ∧ RegisteredFor T iid it ∧ it.ipv4 = ipv4 := by
  rw [target, Option.bind_eq_some_iff] at h
  obtain ⟨iid, hdest, hmap⟩ := h
  rw [Option.map_eq_some_iff] at hmap
  obtain ⟨it, hfind, hip⟩ := hmap
  have hkey := List.find?_some hfind
  exact ⟨iid, it, hdest, ⟨hashId iid, List.mem_of_find?_eq_some hfind, by simpa using hkey⟩, hip⟩

section Exact

variable (T : Table) (w : ℕ → Calls) (chain : List Taken)

theorem getElem?_of_mem_reached {x : Taken × ℕ} (hx : x ∈ reached (Stops T w) chain.zipIdx) :
    chain[x.2]? = some x.1 := by
  exact List.mem_zipIdx_iff_getElem?.mp (mem_of_mem_reached hx)

/-- Every datagram of a drain is routed and built from its own message exactly
when, up to the first message that ends the loop, none overflows and every reply
is encrypted. -/
theorem send_to_dst_routed_iff :
    (∃ c outs, sendToDst T true w chain = some (c, outs) ∧ ∀ s ∈ outs, Routed T w chain s) ↔
      ∀ x ∈ reached (Stops T w) chain.zipIdx, ¬ Overflows w x ∧ ¬ Stale w x := by
  constructor
  · rintro ⟨c, outs, hrun, hrouted⟩ x hx
    obtain ⟨hfits, hall, _⟩ := sendToDst_spec hrun
    refine ⟨hfits x hx, ?_⟩
    rintro ⟨_, hnone⟩
    obtain ⟨s, hs, hsent⟩ := forall₂_mem_left hall hx
    obtain ⟨q, hq, _, hbuilt, _⟩ := hrouted s hs
    rw [hsent.index, getElem?_of_mem_reached T w chain hx] at hq
    cases hq
    rw [hsent.index, hnone] at hbuilt
    cases hbuilt
  · intro h
    obtain ⟨c, outs, hrun, hall, _⟩ := sendToDst_some fun x hx => (h x hx).1
    refine ⟨c, outs, hrun, ?_⟩
    intro s hs
    obtain ⟨x, hx, hsent⟩ := forall₂_mem_right hall hs
    have hbuilt : built (w x.2) x.1 ≠ none := by
      intro hnone
      have hstop : ¬ Stops T w x := not_stops_of_mem_reached hx
      by_cases hget : msgType x.1.mem = msgGetAes
      · exact (h x hx).2 ⟨hget, hnone⟩
      · by_cases hntf : msgType x.1.mem = msgNtf
        · exact hstop (Or.inr ⟨hntf, hnone⟩)
        · simp [built, hget, hntf] at hnone
    obtain ⟨b, hb⟩ := Option.ne_none_iff_exists'.mp hbuilt
    obtain ⟨iid, it, hreg⟩ := target_registered hsent.target
    refine ⟨x.1, ?_, hsent.item, ?_, iid, it, hreg⟩
    · rw [hsent.index]
      exact getElem?_of_mem_reached T w chain hx
    · rw [hsent.index, hb, hsent.payload b hb]

end Exact

/-- A reply without a key: 100 cleared bytes, as many as the datagram before had. -/
theorem send_to_dst_sends_stale_reply :
    ¬ ∀ (T : Table) (w : ℕ → Calls) (chain : List Taken), ∃ c outs,
      sendToDst T true w chain = some (c, outs) ∧ ∀ s ∈ outs, Routed T w chain s := by
  intro h
  let T := (exec tableStep emptyTable [.reg (header msgReg gNtfCli [100, 49] []) 100 none none]).1
  let w : ℕ → Calls := fun _ => ⟨none, Gcm.failing, 100⟩
  let plain := header msgTra fSrvCli [100, 49] []
  let reply := header msgGetAes fSrvCli [100, 49] []
  let chain : List Taken := [⟨⟨plain, 100, by decide⟩, []⟩, ⟨⟨reply, 100, by decide⟩, []⟩]
  obtain ⟨c, outs, hrun, hrouted⟩ := h T w chain
  have houts : (sendToDst T true w chain).map (fun r => r.2.map fun s => (s.index, s.payload)) =
      some [(0, plain), (1, zeros 100)] := by decide +kernel
  rw [hrun, Option.map_some, Option.some.injEq] at houts
  have hmem : (1, zeros 100) ∈ outs.map fun s => (s.index, s.payload) := by
    rw [houts]
    simp
  obtain ⟨s, hs, heq⟩ := List.mem_map.mp hmem
  obtain ⟨q, hq, _, hbuilt, _⟩ := hrouted s hs
  have hindex : s.index = 1 := congrArg Prod.fst heq
  rw [hindex] at hq hbuilt
  cases hq
  have hnone : (built (w 1) ⟨⟨reply, 100, by decide⟩, []⟩).isSome = false := by decide +kernel
  rw [hbuilt] at hnone
  cases hnone

/-! ### Messages that have to be sent -/

/-- The target is registered and the encryption succeeds. -/
def Good (T : Table) (w : ℕ → Calls) (x : Taken × ℕ) : Prop :=
  (∃ iid it, destId x.1.mem = some iid ∧ RegisteredFor T iid it) ∧ built (w x.2) x.1 ≠ none

open Classical in
/-- Each good message of the chain has one call of `sendto`, in the order of the
chain, with its encoding; `count` is the number of calls that succeeded. -/
structure NoneLost (T : Table) (w : ℕ → Calls) (chain : List Taken) (c : Carry)
    (outs : List Sent) : Prop where
  once : (outs.map Sent.index).filter (fun k => ∃ q, chain[k]? = some q ∧ Good T w (q, k)) =
    (chain.zipIdx.filter fun x => Good T w x).map Prod.snd
  encoded : ∀ s ∈ outs, ∀ q, chain[s.index]? = some q → Good T w (q, s.index) →
    built (w s.index) q = some s.payload
  count : c.count = (outs.filter fun s => 0 ≤ s.ret).length

section Exact

variable (T : Table) (w : ℕ → Calls) (chain : List Taken)

theorem map_index_eq {l : List (Taken × ℕ)} {outs : List Sent}
    (h : List.Forall₂ (SentFor T w) l outs) : outs.map Sent.index = l.map Prod.snd := by
  induction h with
  | nil => rfl
  | cons hs _ ih => rw [List.map_cons, List.map_cons, hs.index, ih]

open Classical in
/-- The calls of `sendto` are those of the messages reached, so the good messages
behind them are what is missing. -/
theorem once_iff {outs : List Sent}
    (h : List.Forall₂ (SentFor T w) (reached (Stops T w) chain.zipIdx) outs) :
    (outs.map Sent.index).filter (fun k => ∃ q, chain[k]? = some q ∧ Good T w (q, k)) =
      (chain.zipIdx.filter fun x => Good T w x).map Prod.snd ↔
    ∀ x ∈ unreached (Stops T w) chain.zipIdx, ¬ Good T w x := by
  have hindex : (outs.map Sent.index).filter
      (fun k => ∃ q, chain[k]? = some q ∧ Good T w (q, k)) =
      ((reached (Stops T w) chain.zipIdx).filter fun x => Good T w x).map Prod.snd := by
    rw [map_index_eq T w h, List.filter_map]
    congr 1
    apply List.filter_congr
    intro x hx
    simp [getElem?_of_mem_reached T w chain hx]
  rw [hindex]
  conv_lhs => rhs; rw [← reached_append_unreached (Stops T w) chain.zipIdx]
  rw [List.filter_append, List.map_append, List.self_eq_append_right, List.map_eq_nil_iff,
    List.filter_eq_nil_iff]
  simp

/-- No good message is lost and the count is right exactly when no message
reached overflows, each of their datagrams goes out, and none of the messages from
the first that ends the loop on is good. -/
theorem send_to_dst_loses_none_iff :
    (∃ c outs, sendToDst T true w chain = some (c, outs) ∧ NoneLost T w chain c outs) ↔
      (∀ x ∈ reached (Stops T w) chain.zipIdx, ¬ Overflows w x ∧ 0 ≤ (w x.2).sendto) ∧
        ∀ x ∈ unreached (Stops T w) chain.zipIdx, ¬ Good T w x := by
  constructor
  · rintro ⟨c, outs, hrun, hlost⟩
    obtain ⟨hfits, hall, hcount⟩ := sendToDst_spec hrun
    refine ⟨?_, (once_iff T w chain hall).mp hlost.once⟩
    intro x hx
    obtain ⟨s, hs, hsent⟩ := forall₂_mem_left hall hx
    have hfilter : (outs.filter fun s => 0 ≤ s.ret).length = outs.length := by
      rw [← hlost.count, hcount]
    rw [List.length_filter_eq_length_iff] at hfilter
    have hret := hfilter s hs
    rw [hsent.ret] at hret
    exact ⟨hfits x hx, by simpa using hret⟩
  · rintro ⟨hreached, hrest⟩
    obtain ⟨c, outs, hrun, hall, hcount⟩ := sendToDst_some fun x hx => (hreached x hx).1
    refine ⟨c, outs, hrun, (once_iff T w chain hall).mpr hrest, ?_, ?_⟩
    · intro s hs q hq hgood
      obtain ⟨x, hx, hsent⟩ := forall₂_mem_right hall hs
      rw [hsent.index, getElem?_of_mem_reached T w chain hx] at hq
      cases hq
      rw [hsent.index] at hgood ⊢
      obtain ⟨b, hb⟩ := Option.ne_none_iff_exists'.mp hgood.2
      rw [hb, hsent.payload b hb]
    · rw [hcount, eq_comm, List.length_filter_eq_length_iff]
      intro s hs
      obtain ⟨x, hx, hsent⟩ := forall₂_mem_right hall hs
      rw [hsent.ret]
      simpa using (hreached x hx).2

end Exact

/-- A notification to an unknown device ends the drain before the message behind it. -/
theorem send_to_dst_loses_behind_unknown :
    ¬ ∀ (T : Table) (w : ℕ → Calls) (chain : List Taken), ∃ c outs,
      sendToDst T true w chain = some (c, outs) ∧ NoneLost T w chain c outs := by
  intro h
  let T := (exec tableStep emptyTable [.reg (header msgReg gNtfCli [100, 49] []) 100 none none]).1
  let w : ℕ → Calls := fun _ => ⟨none, Gcm.failing, 100⟩
  let unknown := header msgNtf gNtfCli [100, 50] []
  let known := header msgTra fSrvCli [100, 49] []
  let chain : List Taken := [⟨⟨unknown, 100, by decide⟩, []⟩, ⟨⟨known, 100, by decide⟩, []⟩]
  obtain ⟨c, outs, hrun, hlost⟩ := h T w chain
  have houts : (sendToDst T true w chain).map (fun r => r.2.length) = some 0 := by decide +kernel
  rw [hrun, Option.map_some, Option.some.injEq, List.length_eq_zero_iff] at houts
  have hgood : Good T w (⟨⟨known, 100, by decide⟩, []⟩, 1) := by
    have htarget : (target T ⟨⟨known, 100, by decide⟩, []⟩).isSome := by decide +kernel
    obtain ⟨ipv4, hip⟩ := Option.isSome_iff_exists.mp htarget
    obtain ⟨iid, it, hdest, hreg, _⟩ := target_registered hip
    have hbuilt : (built (w 1) ⟨⟨known, 100, by decide⟩, []⟩).isSome := by decide +kernel
    exact ⟨⟨iid, it, hdest, hreg⟩, Option.isSome_iff_ne_none.mp hbuilt⟩
  have honce := hlost.once
  rw [show outs = [] from houts, List.map_nil, List.filter_nil, eq_comm, List.map_eq_nil_iff,
    List.filter_eq_nil_iff] at honce
  exact honce (⟨⟨known, 100, by decide⟩, []⟩, 1) (by simp [chain]) (by simpa using hgood)

end MemoryLeak.Notify
