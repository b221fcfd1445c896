import Mathlib.Data.List.Forall2
import Mielofon.Agent.Discover
import Mielofon.Session.Controller

namespace Mielofon

open Lib

/-!
# Names of far ends

An agent knows its peers by names decoded from BIRD protocols, in which a hyphen and a dot look
the same.  The registry names a far end as the node registers, whichever of the two ends came
first (`worker.rs`), if both programs fold the names alike (`discover.rs`).

* `registered` — the registry after agents registered, one after another;
* `Distinct` — each agent has one request, and no two names fold to one key;
* `SettledAs` — a far end as the registered agents settle it;
* `SettledAll` — every link of every registered agent is settled; `SettledAll.register` keeps it,
  and it leaves one link set to each agent (`SettledAll.links_eq`);
* `nameKey_peerHostname` — a decoded name folds like the name of the host;
* `names_settle` — the order in which agents register does not matter.
-/

/-- The registry after the requests, one after another. -/
def registered (reqs : List RegisterReq) : WorkerRegistry :=
  reqs.foldl (fun r req => (r.register req.agent req.links (Controller.ridOf req)
    (Controller.peerRidsOf req) req.loopback).1) WorkerRegistry.new

/-- Each agent has one request, and no two names fold to one key. -/
def Distinct (reqs : List RegisterReq) : Prop :=
  ∀ q ∈ reqs, ∀ q' ∈ reqs, nameKey q.agent = nameKey q'.agent → q = q'

instance (reqs : List RegisterReq) : Decidable (Distinct reqs) :=
  inferInstanceAs (Decidable (∀ q ∈ reqs, ∀ q' ∈ reqs, nameKey q.agent = nameKey q'.agent → q = q'))

/-- The far end that an agent sent is spelled as the agent registered that it stands for, if there
    is one, and as sent if there is none. -/
def SettledAs (reqs : List RegisterReq) (sent l : LinkKey) : Prop :=
  (∀ q ∈ reqs, nameKey q.agent = nameKey sent.to → l = { sent with «to» := q.agent }) ∧
    ((∀ q ∈ reqs, nameKey q.agent ≠ nameKey sent.to) → l = sent)

theorem SettledAs.eq {reqs : List RegisterReq} {sent l l' : LinkKey} (h : SettledAs reqs sent l)
    (h' : SettledAs reqs sent l') : l = l' := by
  by_cases hq : ∃ q ∈ reqs, nameKey q.agent = nameKey sent.to
  · obtain ⟨q, hmem, hkey⟩ := hq
    rw [h.1 q hmem hkey, h'.1 q hmem hkey]
  · have hnone : ∀ q ∈ reqs, nameKey q.agent ≠ nameKey sent.to := fun q hmem hkey =>
      hq ⟨q, hmem, hkey⟩
    rw [h.2 hnone, h'.2 hnone]

/-- Only which agents registered matters. -/
theorem SettledAs.congr {reqs reqs' : List RegisterReq} (hreqs : ∀ q, q ∈ reqs ↔ q ∈ reqs')
    {sent l : LinkKey} (h : SettledAs reqs sent l) : SettledAs reqs' sent l :=
  ⟨fun q hq => h.1 q ((hreqs q).mpr hq), fun hq => h.2 (fun q hmem => hq q ((hreqs q).mp hmem))⟩

/-- Settling changes the far end alone, and that to a name which folds to the key of the one
    sent. -/
theorem SettledAs.renamed {reqs : List RegisterReq} {sent l : LinkKey} (h : SettledAs reqs sent l) :
    l = { sent with «to» := l.to } ∧ nameKey l.to = nameKey sent.to := by
  by_cases hq : ∃ q ∈ reqs, nameKey q.agent = nameKey sent.to
  · obtain ⟨q, hmem, hkey⟩ := hq
    rw [h.1 q hmem hkey]
    exact ⟨rfl, hkey⟩
  · rw [h.2 (fun q hmem hkey => hq ⟨q, hmem, hkey⟩)]
    exact ⟨rfl, rfl⟩

/-! ### One registration -/

section Register

variable {reqs : List RegisterReq} {req : RegisterReq} {r : WorkerRegistry}

/-- The agent that registers settles its own links on the names known before, and on its own. -/
theorem settled_settle (hd : Distinct (reqs ++ [req])) {known : List String}
    (hknown : ∀ a, a ∈ known ↔ ∃ q ∈ reqs, q.agent = a) (l : LinkKey) :
    SettledAs (reqs ++ [req]) l (WorkerRegistry.settle req.agent known l) := by
  have hlast : req ∈ reqs ++ [req] := List.mem_append_right _ (List.mem_singleton_self _)
  unfold WorkerRegistry.settle
  split
  · rename_i a hfind
    obtain ⟨k, hmem, rfl⟩ := (hknown a).mp (List.mem_of_find?_eq_some hfind)
    have hin := List.mem_append_left [req] hmem
    have hkey : nameKey k.agent = nameKey l.to := by simpa using List.find?_some hfind
    refine ⟨fun q hq hq' => ?_, fun hnone => absurd hkey (hnone k hin)⟩
    rw [hd q hq k hin (hq'.trans hkey.symm)]
  · rename_i hfind
    have hnone : ∀ q ∈ reqs, nameKey q.agent ≠ nameKey l.to := fun q hq => by
      simpa using List.find?_eq_none.mp hfind q.agent ((hknown _).mpr ⟨q, hq, rfl⟩)
    split
    · rename_i hme
      refine ⟨fun q hq hkey => ?_, fun h => absurd hme.symm (h req hlast)⟩
      rw [hd q hq req hlast (hkey.trans hme)]
    · rename_i hme
      refine ⟨fun q hq hkey => ?_, fun _ => rfl⟩
      rcases List.mem_append.mp hq with hq | hq
      · exact absurd hkey (hnone q hq)
      · obtain rfl := List.mem_singleton.mp hq
        exact absurd hkey.symm hme

/-- The links of the others settle on the name of the agent that registers. -/
theorem settled_settleOther (hd : Distinct (reqs ++ [req])) {sent l : LinkKey}
    (h : SettledAs reqs sent l) :
    SettledAs (reqs ++ [req]) sent (WorkerRegistry.settleOther req.agent l) := by
  have hlast : req ∈ reqs ++ [req] := List.mem_append_right _ (List.mem_singleton_self _)
  obtain ⟨hends, hto⟩ := h.renamed
  by_cases hme : nameKey sent.to = nameKey req.agent
  · -- the far end stands for this agent, and for no other
    have hsettled : WorkerRegistry.settleOther req.agent l = { sent with «to» := req.agent } := by
      by_cases hsame : l.to = req.agent
      · rw [WorkerRegistry.settleOther, if_neg (fun hc => hc.1 hsame), hends, hsame]
      · rw [WorkerRegistry.settleOther, if_pos ⟨hsame, hto.trans hme⟩, hends]
    refine ⟨fun q hq hkey => ?_, fun hnone => absurd hme.symm (hnone req hlast)⟩
    rw [hsettled, hd q hq req hlast (hkey.trans hme)]
  · have hkeep : WorkerRegistry.settleOther req.agent l = l :=
      if_neg (fun hc => hme (hto ▸ hc.2))
    rw [hkeep]
    refine ⟨fun q hq hkey => ?_, fun hnone => h.2 (fun q hq => hnone q (List.mem_append_left _ hq))⟩
    rcases List.mem_append.mp hq with hq | hq
    · exact h.1 q hq hkey
    · obtain rfl := List.mem_singleton.mp hq
      exact absurd hkey.symm hme

/-- The registered agents are those of the requests, and their links are settled. -/
structure SettledAll (reqs : List RegisterReq) (r : WorkerRegistry) : Prop where
  known : ∀ a, (∃ w, r.worker a = some w) ↔ ∃ q ∈ reqs, q.agent = a
  links : ∀ q ∈ reqs, ∀ w, r.worker q.agent = some w →
    List.Forall₂ (SettledAs reqs) q.links w.links

/-- The agents known after a registration. -/
theorem SettledAll.known_register (h : SettledAll reqs r) (a : String) :
    (∃ w, (r.register req.agent req.links (Controller.ridOf req) (Controller.peerRidsOf req)
      req.loopback).1.worker a = some w) ↔ ∃ q ∈ reqs ++ [req], q.agent = a := by
  simp only [WorkerRegistry.worker_register, List.mem_append, List.mem_singleton]
  by_cases ha : a = req.agent
  · rw [if_pos ha]
    exact ⟨fun _ => ⟨req, Or.inr rfl, ha.symm⟩, fun _ => ⟨_, rfl⟩⟩
  · rw [if_neg ha]
    constructor
    · rintro ⟨w, hw⟩
      obtain ⟨w', hw', -⟩ := Option.map_eq_some_iff.mp hw
      obtain ⟨q, hq, hqa⟩ := (h.known a).mp ⟨w', hw'⟩
      exact ⟨q, Or.inl hq, hqa⟩
    · rintro ⟨q, hq, rfl⟩
      obtain ⟨w, hw⟩ := (h.known q.agent).mpr
        ⟨q, hq.resolve_right (fun heq => ha (congrArg RegisterReq.agent heq)), rfl⟩
      exact ⟨_, by rw [hw]; rfl⟩

/-- **Step lemma.** A registration settles every link of every agent. -/
theorem SettledAll.register (h : SettledAll reqs r) (hd : Distinct (reqs ++ [req])) :
    SettledAll (reqs ++ [req]) (r.register req.agent req.links (Controller.ridOf req)
      (Controller.peerRidsOf req) req.loopback).1 := by
  have hknown : ∀ a, a ∈ r.inner.keys ↔ ∃ q ∈ reqs, q.agent = a := fun a => by
    rw [← h.known a, ← AList.mem_keys]
    exact ⟨Map.exists_get_of_mem, fun ⟨w, hw⟩ => Map.mem_of_get hw⟩
  refine ⟨h.known_register, fun q hq w hw => ?_⟩
  rw [WorkerRegistry.worker_register] at hw
  split at hw
  · -- its own links, as it reports them
    rename_i hagent
    obtain rfl := Option.some.inj hw
    have hreq : q = req := hd q hq req (List.mem_append_right _ (List.mem_singleton_self _))
      (congrArg nameKey hagent)
    subst hreq
    show List.Forall₂ _ _ (q.links.map (WorkerRegistry.settle q.agent r.inner.keys))
    rw [List.forall₂_map_right_iff, List.forall₂_same]
    exact fun l _ => settled_settle hd hknown l
  · -- those of another agent, settled before
    rename_i hagent
    obtain ⟨w', hw', rfl⟩ := Option.map_eq_some_iff.mp hw
    have hq' : q ∈ reqs := by
      rcases List.mem_append.mp hq with hq | hq
      · exact hq
      · exact absurd (congrArg RegisterReq.agent (List.mem_singleton.mp hq)) hagent
    show List.Forall₂ _ _ (w'.links.map (WorkerRegistry.settleOther req.agent))
    rw [List.forall₂_map_right_iff]
    exact (h.links q hq' w' hw').imp (fun _ _ hsettled => settled_settleOther hd hsettled)

/-- Two registries in which the same requests are settled have the same links. -/
theorem SettledAll.links_eq {reqs' : List RegisterReq} {r' : WorkerRegistry}
    (h : SettledAll reqs r) (h' : SettledAll reqs' r') (hsame : ∀ q, q ∈ reqs ↔ q ∈ reqs')
    (a : String) : (r.worker a).map Worker.links = (r'.worker a).map Worker.links := by
  cases hw : r.worker a with
  | none =>
    cases hw' : r'.worker a with
    | none => rfl
    | some w' =>
      obtain ⟨q, hq, hqa⟩ := (h'.known a).mp ⟨w', hw'⟩
      obtain ⟨w, hsome⟩ := (h.known a).mpr ⟨q, (hsame q).mpr hq, hqa⟩
      rw [hw] at hsome
      exact absurd hsome (by simp)
  | some w =>
    obtain ⟨q, hq, rfl⟩ := (h.known a).mp ⟨w, hw⟩
    obtain ⟨w', hw'⟩ := (h'.known q.agent).mpr ⟨q, (hsame q).mp hq, rfl⟩
    have hsettled := h.links q hq w hw
    have hsettled' := (h'.links q ((hsame q).mp hq) w' hw').imp
      (fun _ _ h => h.congr (fun q => (hsame q).symm))
    have hlinks : w.links = w'.links :=
      List.right_unique_forall₂' (fun _ _ _ h h' => h.eq h') hsettled hsettled'
    rw [hw', Option.map_some, Option.map_some, hlinks]

end Register

theorem Distinct.mono {reqs reqs' : List RegisterReq} (h : Distinct reqs')
    (hsub : ∀ q ∈ reqs, q ∈ reqs') : Distinct reqs :=
  fun q hq q' hq' => h q (hsub q hq) q' (hsub q' hq')

/-- **Run lemma.** -/
theorem settledAll_registered {reqs : List RegisterReq} (hd : Distinct reqs) :
    SettledAll reqs (registered reqs) := by
  induction reqs using List.reverseRecOn with
  | nil =>
    refine ⟨fun a => ?_, fun q hq => absurd hq List.not_mem_nil⟩
    constructor
    · rintro ⟨w, hw⟩
      exact absurd hw (by simp [registered, WorkerRegistry.new, WorkerRegistry.worker])
    · rintro ⟨q, hq, -⟩
      exact absurd hq List.not_mem_nil
  | append_singleton reqs req ih =>
    rw [registered, List.foldl_concat]
    exact (ih (hd.mono (fun q hq => List.mem_append_left _ hq))).register hd

/-! ### Decoded names -/

/-- A host name as a BIRD protocol spells it. -/
def protocolName (host : String) : String :=
  "peer_" ++ String.ofList (host.toList.map (fun c => if c = '-' ∨ c = '.' then '_' else c))

/-- **A decoded name folds like the host's.** -/
theorem nameKey_peerHostname {host : String} (h : host ≠ "") :
    ∃ name, peerHostname (protocolName host) = some name ∧ nameKey name = nameKey host := by
  have hchars : (protocolName host).toList = "peer_".toList ++
      host.toList.map (fun c => if c = '-' ∨ c = '.' then '_' else c) := by
    simp [protocolName, String.toList_append]
  have hne : host.toList.map (fun c => if c = '-' ∨ c = '.' then '_' else c) ≠ [] := by
    simpa using h
  refine ⟨_, by rw [peerHostname, hchars, stripPrefix_append, Option.bind_some, if_neg hne], ?_⟩
  rw [nameKey, nameKey, String.toList_ofList, List.map_map, List.map_map]
  refine congrArg String.ofList (List.map_congr_left (fun c _ => ?_))
  -- a hyphen or a dot comes back as a dot, and so does an underscore
  by_cases hfold : c = '-' ∨ c = '.'
  · simp [hfold]
  · by_cases hline : c = '_'
    · subst hline
      decide
    · simp [hfold, hline]

/-- **Names settle.** Whatever the order of the requests and however often each is made, the same
    agents end with the same links: a far end that folds to the key of a registered agent is spelled
    as that agent registered, any other one as it was sent.  And what an agent decodes from the
    protocol of a peer folds to the key of the peer's name. -/
theorem names_settle (reqs : List RegisterReq) (hd : Distinct reqs) :
    (∀ q ∈ reqs, ∃ w, (registered reqs).worker q.agent = some w ∧
      List.Forall₂ (SettledAs reqs) q.links w.links) ∧
    (∀ reqs', (∀ q, q ∈ reqs ↔ q ∈ reqs') → ∀ a,
      ((registered reqs).worker a).map Worker.links =
        ((registered reqs').worker a).map Worker.links) ∧
    ∀ host, host ≠ "" →
      ∃ name, peerHostname (protocolName host) = some name ∧ nameKey name = nameKey host := by
  have hall := settledAll_registered hd
  refine ⟨fun q hq => ?_, fun reqs' hsame a => ?_, fun host => nameKey_peerHostname⟩
  · obtain ⟨w, hw⟩ := (hall.known q.agent).mpr ⟨q, hq, rfl⟩
    exact ⟨w, hw, hall.links q hq w hw⟩
  · exact hall.links_eq (settledAll_registered (hd.mono (fun q hq => (hsame q).mpr hq))) hsame a

/-- A hub that decodes the hyphen of its peer's name as a dot, and the peer. -/
private def hubAndNode : List RegisterReq :=
  [⟨"hub-a", none, [⟨"hub-a", "node.0.example", "awg_sp_node0"⟩], [], none⟩,
    ⟨"node-0.example", none, [⟨"node-0.example", "hub-a", "awg_hub_a"⟩], [], none⟩]

theorem names_settle_hubAndNode :
    (∀ q ∈ hubAndNode, ∃ w, (registered hubAndNode).worker q.agent = some w ∧
      List.Forall₂ (SettledAs hubAndNode) q.links w.links) ∧
    (∀ reqs', (∀ q, q ∈ hubAndNode ↔ q ∈ reqs') → ∀ a,
      ((registered hubAndNode).worker a).map Worker.links =
        ((registered reqs').worker a).map Worker.links) ∧
    ∀ host, host ≠ "" →
      ∃ name, peerHostname (protocolName host) = some name ∧ nameKey name = nameKey host :=
  names_settle hubAndNode (by decide)

end Mielofon
