import Mathlib
import Mielofon.Trace.Walk

namespace Mielofon

open Lib

/-!
# Complete traces

A trace is requested to a node name, which stands for the loopback the node registered with, or to a
raw prefix; its result is kept for a few seconds for the requests that repeat it (`trace.rs`).  It is
reported complete as soon as some node it asked has the target attached, whichever node that is.

* `TraceRequest`, `TraceResult`, `target` — a request, its answer, and the prefix it asks for;
* `walkAll`, `runTrace` — the walk run to its end, and a request with the cache before it;
* `AnswersDev`, `complete_iff` — the walk is complete exactly when a node it asked has the target
  attached;
* `Honest`, `honest_runTrace` — what the cache holds are walks of the same mesh;
* `complete_reached_iff` — when a complete trace has reached its destination.
-/

variable {F : Type*}

/-! ### Requests -/

/-- A trace request. -/
structure TraceRequest where
  «from» : String
  «to» : Option String
  prefix_ : Option String
deriving DecidableEq, Repr

/-- Failure to start a trace: bad arguments, or an unknown source. -/
inductive TraceError where
  | badRequest (msg : String)
deriving DecidableEq, Repr

/-- Full trace result. -/
structure TraceResult (F : Type*) where
  «from» : String
  «to» : Option String
  prefix_ : String
  ts : ℕ
  complete : Bool
  cap_hit : Bool
  edges : List (TraceEdge F)
deriving DecidableEq, Repr

/-- How long a result is kept, in milliseconds. -/
def cacheTtl : ℕ := 5000

/-- How many results are kept. -/
def cacheMax : ℕ := 32

/-- A kept result, with the source it was asked for and the moment it was put. -/
abbrev CacheEntry (F : Type*) := String × ℕ × TraceResult F

/-- Forget the results that are too old, and find one for the request. -/
def cacheGet (cache : List (CacheEntry F)) (now : ℕ) («from» prefix_ : String) :
    List (CacheEntry F) × Option (TraceResult F) :=
  let kept := cache.filter (fun e => now - e.2.1 ≤ cacheTtl)
  (kept, (kept.find? (fun e => e.1 = «from» ∧ e.2.2.prefix_ = prefix_)).map (fun e => e.2.2))

/-- Keep a result; the oldest one makes room for it. -/
def cachePut (cache : List (CacheEntry F)) (now : ℕ) («from» : String) (result : TraceResult F) :
    List (CacheEntry F) :=
  (if cacheMax ≤ cache.length then cache.drop 1 else cache) ++ [(«from», now, result)]

/-- The mesh as far as traces go: the registry, the records, and what each agent answers for each
    prefix. -/
structure Net (F : Type*) where
  workers : WorkerRegistry
  kv : LwwStore F
  request : String → String → Except String (List RouteRep)

/-- The mesh loopback an agent reported when it registered, if any. -/
def WorkerRegistry.loopback (r : WorkerRegistry) (agent : String) : Option String :=
  (r.worker agent).bind Worker.loopback

/-- The prefix a request asks for. -/
def target (workers : WorkerRegistry) (req : TraceRequest) : Except TraceError String :=
  match req.prefix_.filter (fun p => p ≠ "") with
  | some p => .ok p
  | none =>
    match req.to.filter (fun t => t ≠ "") with
    | none => .error (.badRequest "missing to or prefix")
    | some t =>
      match workers.loopback t with
      | some lb => .ok lb
      | none => .error (.badRequest
          ("cannot resolve '" ++ t ++ "' to a prefix (agent never reported a loopback)"))

namespace Mesh

/-- The walk, run to its end: there are no more rounds than nodes within the cap. -/
def walkAll (m : Mesh F) («from» : String) : Walk F :=
  (m.walk ((Search.ball m.neighbours «from» hopCap).card + 1) «from»).getD
    ⟨[], ∅, [], false, false, []⟩

/-- The node answers a device next hop: it has the target attached. -/
def AnswersDev (m : Mesh F) (node : String) : Prop :=
  ∃ routes, m.dispatchHop node = .ok routes ∧ ∃ r ∈ routes, ∃ iface, .dev iface ∈ r.next_hops

/-- The node is fewer than `hopCap` hops away along the next hops. -/
def InReach (m : Mesh F) («from» node : String) : Prop :=
  ∃ d < hopCap, PathOf (fun u v => v ∈ m.neighbours u) «from» d node

end Mesh

namespace Net

/-- What a walk for a prefix reads. -/
def mesh (net : Net F) (prefix_ : String) : Mesh F := ⟨net.workers, net.kv, net.request prefix_⟩

/-- The result of a walk. -/
def walkResult (net : Net F) (ts : ℕ) («from» : String) («to» : Option String) (prefix_ : String) :
    TraceResult F :=
  let w := (net.mesh prefix_).walkAll «from»
  ⟨«from», «to», prefix_, ts, w.complete, w.cap_hit, w.edges⟩

/-- The clocks a request reads: when it looks into the cache, when it puts its result there, and the
    time of the result. -/
structure Clocks where
  looked : ℕ
  put : ℕ
  ts : ℕ

/-- Run a request against the mesh, using the cache for repeats. -/
def runTrace (net : Net F) (cache : List (CacheEntry F)) (c : Clocks) (req : TraceRequest) :
    List (CacheEntry F) × Except TraceError (TraceResult F) :=
  if req.from = "" then (cache, .error (.badRequest "missing from"))
  else if req.from ∉ net.workers.inner then
    (cache, .error (.badRequest ("unknown source agent '" ++ req.from ++ "' (not registered)")))
  else
    match target net.workers req with
    | .error e => (cache, .error e)
    | .ok prefix_ =>
      match cacheGet cache c.looked req.from prefix_ with
      | (cache, some hit) => (cache, .ok hit)
      | (cache, none) =>
        let result := net.walkResult c.ts req.from req.to prefix_
        (cachePut cache c.put req.from result, .ok result)

/-- The cache after a sequence of requests. -/
def serve (net : Net F) (reqs : List (Clocks × TraceRequest)) : List (CacheEntry F) :=
  reqs.foldl (fun cache p => (net.runTrace cache p.1 p.2).1) []

end Net

/-! ### What makes a walk complete -/

/-- The target is attached here. -/
def NextHopRep.isDev : NextHopRep → Bool
  | .dev _ => true
  | .via .. => false

/-- A device next hop is kept, as a next hop into the mesh has another key. -/
theorem any_isDev_allNextHops (routes : List RouteRep) :
    (allNextHops routes).any NextHopRep.isDev = true ↔
      ∃ r ∈ routes, ∃ iface, .dev iface ∈ r.next_hops := by
  obtain ⟨keys, hkept⟩ := allNextHops_kept routes
  rw [List.any_eq_true]
  constructor
  · rintro ⟨nh, hnh, hdev⟩
    obtain ⟨r, hr, hmem⟩ := List.mem_flatMap.mp (hkept.sound nh hnh)
    cases nh with
    | dev iface => exact ⟨r, hr, iface, hmem⟩
    | via addr iface => exact absurd hdev (by simp [NextHopRep.isDev])
  · rintro ⟨r, hr, iface, hmem⟩
    have hkey := (hkept.keys _).mp (hkept.complete _ (List.mem_flatMap.mpr ⟨r, hr, hmem⟩))
    obtain ⟨nh, hnh, heq⟩ := List.mem_map.mp hkey
    refine ⟨nh, hnh, ?_⟩
    cases nh with
    | dev iface' => rfl
    | via addr iface' =>
      -- the key of a next hop into the mesh starts with another letter
      have hlist := congrArg String.toList heq
      simp [hopKey, String.toList_append] at hlist

namespace Mesh

variable {m : Mesh F} {w w' : Walk F} {node : String}

theorem answersDev_iff {routes : List RouteRep} (hok : m.dispatchHop node = .ok routes) :
    m.AnswersDev node ↔ (allNextHops routes).any NextHopRep.isDev = true := by
  rw [any_isDev_allNextHops]
  constructor
  · rintro ⟨routes', hok', h⟩
    obtain rfl := Except.ok.inj (hok.symm.trans hok')
    exact h
  · exact fun h => ⟨routes, hok, h⟩

/-- The next hops of a node make the walk complete if one of them is a device. -/
theorem complete_foldl_visitHop (m : Mesh F) (depth : ℕ) (node : String) (hops : List NextHopRep)
    (w : Walk F) : (hops.foldl (m.visitHop depth node) w).complete =
        (w.complete || hops.any NextHopRep.isDev) ∧
      (hops.foldl (m.visitHop depth node) w).asked = w.asked := by
  induction hops generalizing w with
  | nil => exact ⟨(Bool.or_false _).symm, rfl⟩
  | cons nh hops ih =>
    have hstep : (m.visitHop depth node w nh).complete = (w.complete || nh.isDev) ∧
        (m.visitHop depth node w nh).asked = w.asked := by
      unfold visitHop
      cases nh with
      | dev iface => exact ⟨(Bool.or_true _).symm, rfl⟩
      | via addr iface =>
        dsimp only
        split
        · split
          · exact ⟨(Bool.or_false _).symm, rfl⟩
          · exact ⟨(Bool.or_false _).symm, rfl⟩
        · exact ⟨(Bool.or_false _).symm, rfl⟩
    rw [List.foldl_cons, (ih _).1, (ih _).2, hstep.1, hstep.2, List.any_cons, Bool.or_assoc]
    exact ⟨rfl, rfl⟩

/-- The flag says whether a node asked so far has the target attached. -/
def Told (m : Mesh F) (w : Walk F) : Prop := w.complete = true ↔ ∃ u ∈ w.asked, m.AnswersDev u

/-- Asking one more node. -/
private theorem Told.asked (h : m.Told w) {b : Bool} (hb : b = true ↔ m.AnswersDev node)
    {w' : Walk F} (hcomplete : w'.complete = (w.complete || b)) (hasked : w'.asked = w.asked ++ [node]) :
    m.Told w' := by
  unfold Told at *
  rw [hcomplete, hasked, Bool.or_eq_true, h, hb]
  simp only [List.mem_append, List.mem_singleton, or_and_right, exists_or, exists_eq_left]

/-- **Step lemma.** A round of the walk asks one node at most, and hears whether the target is
    attached there. -/
theorem Told.step (h : m.Told w) (hs : m.walkStep w = some w') : m.Told w' := by
  unfold walkStep at hs
  split at hs
  · exact absurd hs (by simp)
  rename_i node depth rest _
  dsimp only at hs
  split at hs
  · -- the cap: nobody is asked
    obtain rfl := Option.some.inj hs
    exact h
  split at hs
  · rename_i reason herr
    obtain rfl := Option.some.inj hs
    refine h.asked (b := false) ?_ (Bool.or_false _).symm rfl
    refine ⟨fun hfalse => absurd hfalse (by simp), ?_⟩
    rintro ⟨routes, hok, -⟩
    exact absurd (herr.symm.trans hok) (by simp)
  · rename_i routes hok
    have hfold := m.complete_foldl_visitHop depth node (allNextHops routes)
      { w with frontier := rest, asked := w.asked ++ [node] }
    split at hs
    · obtain rfl := Option.some.inj hs
      exact h.asked (answersDev_iff hok).symm hfold.1 hfold.2
    · obtain rfl := Option.some.inj hs
      exact h.asked (answersDev_iff hok).symm hfold.1 hfold.2

/-- The walk ends, and is where the search ends. -/
theorem walk_walkAll (m : Mesh F) («from» : String) :
    m.walk ((Search.ball m.neighbours «from» hopCap).card + 1) «from» = some (m.walkAll «from») ∧
      ∀ v, v ∈ (m.walkAll «from»).asked ↔ m.InReach «from» v := by
  obtain ⟨t, hloop, -, -, -, hmem⟩ := search_of_lt (R := fun u v => v ∈ m.neighbours u)
    (fun _ _ => Iff.rfl) «from» hopCap (Nat.lt_succ_self _)
  -- the walk goes along with a breadth-first search, which asks every node below the cap
  obtain ⟨w, hwalk, hfollows⟩ := m.walk_simulates _ «from» hloop
  have hall : m.walkAll «from» = w := by
    rw [walkAll, hwalk]
    rfl
  rw [hall]
  refine ⟨hwalk, fun v => ?_⟩
  rw [hfollows.asked]
  constructor
  · intro hv
    obtain ⟨⟨v, d⟩, hp, rfl⟩ := List.mem_map.mp hv
    obtain ⟨hdone, hlt⟩ := List.mem_filter.mp hp
    exact ⟨d, by simpa using hlt, ((hmem v d).mp hdone).1.1⟩
  · rintro ⟨n, hn, hpath⟩
    obtain ⟨d, hle, hdist⟩ := hpath.exists_dist
    have hdone := (hmem v d).mpr ⟨hdist, (hle.trans_lt hn).le⟩
    exact List.mem_map.mpr
      ⟨(v, d), List.mem_filter.mpr ⟨hdone, by simpa using hle.trans_lt hn⟩, rfl⟩

/-- **What complete says of a walk.** Some node within reach has the target attached. -/
theorem complete_iff (m : Mesh F) («from» : String) :
    (m.walkAll «from»).complete = true ↔ ∃ u, m.InReach «from» u ∧ m.AnswersDev u := by
  obtain ⟨hwalk, hasked⟩ := m.walk_walkAll «from»
  have htold : m.Told (m.walkAll «from») :=
    loop_invariant m.Told (fun _ _ h hs => h.step hs) _ _ _ (by simp [Told]) hwalk
  unfold Told at htold
  rw [htold]
  simp only [hasked]

end Mesh

/-! ### Requests and the cache -/

namespace Net

variable {net : Net F} {cache : List (CacheEntry F)} {c : Clocks} {req : TraceRequest}
  {r : TraceResult F}

/-- The result is that of a walk for the prefix it names. -/
def Walked (net : Net F) («from» : String) (r : TraceResult F) : Prop :=
  ∃ ts «to», r = net.walkResult ts «from» «to» r.prefix_

/-- Every result kept is that of a walk. -/
def Honest (net : Net F) (cache : List (CacheEntry F)) : Prop := ∀ e ∈ cache, net.Walked e.1 e.2.2

theorem walked_walkResult (net : Net F) (ts : ℕ) («from» : String) («to» : Option String)
    (prefix_ : String) : net.Walked «from» (net.walkResult ts «from» «to» prefix_) :=
  ⟨ts, «to», rfl⟩

theorem Honest.cachePut (h : net.Honest cache) (now : ℕ) {«from» : String}
    (hr : net.Walked «from» r) : net.Honest (cachePut cache now «from» r) := by
  intro e he
  rcases List.mem_append.mp he with he | he
  · split at he
    · exact h e (List.mem_of_mem_drop he)
    · exact h e he
  · obtain rfl := List.mem_singleton.mp he
    exact hr

/-- **A request** keeps the cache honest, and is answered with a walk from its source for the prefix
    it asks for. -/
theorem honest_runTrace (h : net.Honest cache) (c : Clocks) (req : TraceRequest) :
    net.Honest (net.runTrace cache c req).1 ∧
      ∀ r, (net.runTrace cache c req).2 = .ok r →
        target net.workers req = .ok r.prefix_ ∧ net.Walked req.from r := by
  unfold runTrace
  split
  · exact ⟨h, fun r hr => absurd hr (by simp)⟩
  split
  · exact ⟨h, fun r hr => absurd hr (by simp)⟩
  cases htarget : target net.workers req with
  | error e => exact ⟨h, fun r hr => absurd hr (by simp)⟩
  | ok prefix_ =>
    have hkept : net.Honest (cacheGet cache c.looked req.from prefix_).1 :=
      fun e he => h e (List.mem_of_mem_filter he)
    dsimp only
    cases hget : cacheGet cache c.looked req.from prefix_ with
    | mk kept hit =>
      rw [hget] at hkept
      cases hit with
      | some r =>
        refine ⟨hkept, fun r' hr => ?_⟩
        obtain rfl := Except.ok.inj hr
        -- the entry found is one for this source and prefix
        obtain ⟨e, he, rfl⟩ := Option.map_eq_some_iff.mp (Prod.mk.inj hget).2
        have hkey := List.find?_some he
        rw [decide_eq_true_eq] at hkey
        obtain ⟨hfrom, hpfx⟩ := hkey
        rw [hpfx, ← hfrom]
        exact ⟨rfl, h e (List.mem_of_mem_filter (List.mem_of_find?_eq_some he))⟩
      | none =>
        refine ⟨hkept.cachePut c.put (net.walked_walkResult c.ts req.from req.to prefix_),
          fun r' hr => ?_⟩
        obtain rfl := Except.ok.inj hr
        exact ⟨rfl, net.walked_walkResult c.ts req.from req.to prefix_⟩

/-- **Run lemma.** -/
theorem honest_serve (net : Net F) (reqs : List (Clocks × TraceRequest)) :
    net.Honest (net.serve reqs) := by
  induction reqs using List.reverseRecOn with
  | nil => exact fun e he => absurd he List.not_mem_nil
  | append_singleton reqs p ih =>
    rw [serve, List.foldl_concat]
    exact (honest_runTrace ih p.1 p.2).1

/-- A request to a node name asks for the loopback of that node. -/
theorem target_of_name {dest p : String} (hto : req.to = some dest)
    (hname : req.prefix_.filter (fun p => p ≠ "") = none) (h : target net.workers req = .ok p) :
    net.workers.loopback dest = some p := by
  unfold target at h
  rw [hname, hto] at h
  dsimp only at h
  split at h
  · exact absurd h (by simp)
  · rename_i t ht
    obtain rfl := Option.some.inj (Option.filter_eq_some_iff.mp ht).1
    split at h
    · rename_i lb hlb
      rw [hlb, Except.ok.inj h]
    · exact absurd h (by simp)

/-- **When a complete trace has reached its destination.** For every registry and every function of
    route answers, after any requests before it: a request to a node name is answered with a walk for
    the loopback that the node registered.  If that walk is complete the node was asked and has the
    target attached, exactly when this holds of the node, or no other node within reach has the
    target attached. -/
theorem complete_reached_iff (net : Net F) (earlier : List (Clocks × TraceRequest)) (c : Clocks)
    (req : TraceRequest) (dest : String) (hto : req.to = some dest)
    (hname : req.prefix_.filter (fun p => p ≠ "") = none) (r : TraceResult F)
    (hresult : (net.runTrace (net.serve earlier) c req).2 = .ok r) :
    net.workers.loopback dest = some r.prefix_ ∧
      ((r.complete = true → dest ∈ ((net.mesh r.prefix_).walkAll req.from).asked ∧
          (net.mesh r.prefix_).AnswersDev dest) ↔
        ((net.mesh r.prefix_).InReach req.from dest ∧ (net.mesh r.prefix_).AnswersDev dest) ∨
          ∀ u, u ≠ dest → (net.mesh r.prefix_).InReach req.from u →
            ¬ (net.mesh r.prefix_).AnswersDev u) := by
  obtain ⟨htarget, ts, «to», hwalked⟩ := (honest_runTrace (net.honest_serve earlier) c req).2 r hresult
  refine ⟨target_of_name hto hname htarget, ?_⟩
  have hcomplete : r.complete = ((net.mesh r.prefix_).walkAll req.from).complete := by
    rw [hwalked]
    rfl
  rw [hcomplete, Mesh.complete_iff, ((net.mesh r.prefix_).walk_walkAll req.from).2]
  constructor
  · intro h
    by_cases hdest : (net.mesh r.prefix_).InReach req.from dest ∧ (net.mesh r.prefix_).AnswersDev dest
    · exact Or.inl hdest
    · right
      intro u _ hreach hdev
      exact hdest (h ⟨u, hreach, hdev⟩)
  · rintro (hdest | hnone) ⟨u, hreach, hdev⟩
    · exact hdest
    · by_cases hu : u = dest
      · exact hu ▸ ⟨hreach, hdev⟩
      · exact absurd hdev (hnone u hu hreach)

/-- `spoke-1` behind `hub-a`, and `node-z` behind it, with the loopback `fd00::3`.  The spoke answers
    with its link, the destination with its loopback device, and the hub what it is given. -/
private def throughHub (hop : NextHopRep) : Net ℕ where
  workers := (((WorkerRegistry.new.register "spoke-1" [⟨"spoke-1", "hub-a", "awg_hub_a"⟩] none ∅
    none).1.register "hub-a" [⟨"hub-a", "node-z", "awg_node_z"⟩] none ∅ none).1.register "node-z" []
      none ∅ (some "fd00::3")).1
  kv := LwwStore.new
  request _ a :=
    if a = "spoke-1" then .ok [⟨[.via none (some "awg_hub_a")]⟩]
    else if a = "hub-a" then .ok [⟨[hop]⟩]
    else .ok [⟨[.dev (some "dummy_awg")]⟩]

/-- A request to a node name. -/
private def toNodeZ : TraceRequest := ⟨"spoke-1", some "node-z", none⟩

theorem reached_through_hub : ∃ r,
    ((throughHub (.via none (some "awg_node_z"))).runTrace [] ⟨0, 0, 0⟩ toNodeZ).2 = .ok r ∧
      r.complete = true ∧
      "node-z" ∈ (((throughHub (.via none (some "awg_node_z"))).mesh r.prefix_).walkAll "spoke-1").asked ∧
      ((throughHub (.via none (some "awg_node_z"))).mesh r.prefix_).AnswersDev "node-z" := by
  refine ⟨_, rfl, by decide, ?_⟩
  refine ((complete_reached_iff (throughHub (.via none (some "awg_node_z"))) [] ⟨0, 0, 0⟩ toNodeZ
    "node-z" rfl rfl _ rfl).2.mpr (Or.inl ⟨⟨2, by decide, "hub-a", ⟨"spoke-1", rfl, ?_⟩, ?_⟩, ?_⟩))
    (by decide)
  · decide
  · decide
  · exact ⟨_, rfl, _, List.mem_singleton_self _, _, List.mem_singleton_self _⟩

/-- **Complete without its destination.** The hub answers a device next hop for the loopback of
    `node-z`: the trace is complete, and `node-z` was never asked. -/
theorem complete_without_destination : ∃ r,
    ((throughHub (.dev (some "lo"))).runTrace [] ⟨0, 0, 0⟩ toNodeZ).2 = .ok r ∧
      (throughHub (.dev (some "lo"))).workers.loopback "node-z" = some r.prefix_ ∧ r.complete = true ∧
      "node-z" ∉ (((throughHub (.dev (some "lo"))).mesh r.prefix_).walkAll "spoke-1").asked :=
  ⟨_, rfl, by decide, by decide, by decide⟩

end Net

end Mielofon
