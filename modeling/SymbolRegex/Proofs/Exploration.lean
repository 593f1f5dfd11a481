import SymbolRegex.Proofs.Path

/-! # The threads of a step

Each thread stands for the path by which it came. As long as every step has a number
that no node is stamped with, there is one thread after each symbol at every node that
a path leads to, and the path of that thread is the one that is tried first among the
simple ones.
-/

namespace SymbolRegex

/-! ## Room for more steps -/

namespace Claims

variable {c : Claims} {n k : Nat}

def Fresh (c : Claims) : Prop := ∀ stamp ∈ c.stamps, stamp ≠ c.generation

/-- The numbers of the next `n` steps are all new. -/
structure Room (c : Claims) (n : Nat) : Prop where
  le : ∀ stamp ∈ c.stamps, stamp ≤ c.generation
  lt : c.generation.toNat + n < UInt32.size

theorem Fresh.free_eq (h : c.Fresh) (n : Nat) : c.free n = decide (n < c.stamps.size) := by
  by_cases lt : n < c.stamps.size
  · have := h _ (Array.getElem_mem lt)
    simp [free, lt, this]
  · simp [free, lt]

theorem room_new {count : Nat} (h : n < UInt32.size) : (new count).Room n where
  le stamp hs := by
    obtain ⟨-, rfl⟩ := Array.mem_replicate.1 hs
    exact Nat.zero_le _
  lt := by simpa [new] using h

theorem Room.mono (h : c.Room n) (le : k ≤ n) : c.Room k :=
  ⟨h.le, Nat.lt_of_le_of_lt (Nat.add_le_add_left le _) h.lt⟩

theorem Room.toNat_advance (h : c.Room (n + 1)) :
    c.advance.generation.toNat = c.generation.toNat + 1 := by
  have := h.lt
  rw [advance, UInt32.toNat_add]
  exact Nat.mod_eq_of_lt (by show _ + 1 < UInt32.size; omega)

theorem Room.advance (h : c.Room (n + 1)) : c.advance.Room n where
  le stamp hs := by
    have := UInt32.le_iff_toNat_le.1 (h.le stamp hs)
    rw [UInt32.le_iff_toNat_le, h.toNat_advance]
    omega
  lt := by
    have := h.lt
    rw [h.toNat_advance]
    omega

theorem Room.claim (h : c.Room n) (m : Nat) : (c.claim m).Room n where
  le stamp hs := by
    rcases Array.mem_or_eq_of_mem_setIfInBounds hs with hs | rfl
    · exact h.le stamp hs
    · exact UInt32.le_refl _
  lt := h.lt

theorem Room.fresh (h : c.Room (n + 1)) : c.advance.Fresh := by
  intro stamp hs e
  have := UInt32.le_iff_toNat_le.1 (h.le stamp hs)
  have := h.toNat_advance
  rw [← e] at this
  omega

end Claims

namespace Automaton

theorem spread_nil (a : Automaton) (pos : Nat) (f : Frontier) : a.spread pos f [] = f := by
  rw [spread]

theorem spread_cons_of_free {a : Automaton} {pos : Nat} {f : Frontier} {t : Thread}
    {rest : List Thread} (free : f.claims.free t.node = true) : a.spread pos f (t :: rest) =
      a.spread pos ⟨f.claims.claim t.node, f.threads.push t⟩ (a.silentSteps pos t ++ rest) := by
  rw [spread, dif_pos free]

theorem spread_cons_of_taken {a : Automaton} {pos : Nat} {f : Frontier} {t : Thread}
    {rest : List Thread} (taken : ¬ f.claims.free t.node = true) :
    a.spread pos f (t :: rest) = a.spread pos f rest := by
  rw [spread, dif_neg taken]

theorem spread_append (a : Automaton) (pos : Nat) (f : Frontier) (xs ys : List Thread) :
    a.spread pos f (xs ++ ys) = a.spread pos (a.spread pos f xs) ys := by
  induction f, xs using spread.induct a pos with
  | case1 f => rw [List.nil_append, spread_nil]
  | case2 f t rest free ih =>
    rw [List.cons_append, spread_cons_of_free free, spread_cons_of_free free, ← ih,
      List.append_assoc]
  | case3 f t rest taken ih =>
    rw [List.cons_append, spread_cons_of_taken taken, spread_cons_of_taken taken, ih]

/-- Claiming nodes keeps what every single claim keeps. -/
theorem spread_keeps {P : Claims → Prop} (keeps : ∀ c n, P c → P (c.claim n)) (a : Automaton)
    (pos : Nat) {f : Frontier} (stack : List Thread) (h : P f.claims) :
    P (a.spread pos f stack).claims := by
  induction f, stack using spread.induct a pos with
  | case1 f => rwa [spread_nil]
  | case2 f t rest free ih =>
    rw [spread_cons_of_free free]
    exact ih (keeps _ _ h)
  | case3 f t rest taken ih =>
    rw [spread_cons_of_taken taken]
    exact ih h

def Frontier.scratch (f : Frontier) : Scratch := ⟨f.claims, [], f.threads, #[]⟩

def enter (a : Automaton) (claims : Claims) (t : Thread) : Frontier :=
  a.spread 0 ⟨claims.advance, #[]⟩ [t]

def advance (a : Automaton) (pos : Nat) (x : Input) (f : Frontier) : Frontier :=
  a.spread (pos + 1) ⟨f.claims.advance, #[]⟩ (f.threads.toList.flatMap (a.symbolSteps pos x))

theorem foldl_addThread (a : Automaton) (pos : Nat) (f : Frontier) (ts : List Thread) :
    ts.foldl (a.addThread pos) (f, []) = (a.spread pos f ts, []) := by
  induction ts generalizing f with
  | nil => rw [List.foldl_nil, spread_nil]
  | cons t ts ih => rw [List.foldl_cons, addThread, ih, ← spread_append, List.singleton_append]

theorem step_scratch (a : Automaton) (pos : Nat) (x : Input) (f : Frontier) :
    a.step pos x f.scratch = (a.advance pos x f).scratch := by
  have gathered (g : Frontier) (ts : List Thread) :
      ts.foldl (fun g t => (a.symbolSteps pos x t).foldl (a.addThread (pos + 1)) g) (g, []) =
        (a.spread (pos + 1) g (ts.flatMap (a.symbolSteps pos x)), []) := by
    induction ts generalizing g with
    | nil => rw [List.foldl_nil, List.flatMap_nil, spread_nil]
    | cons t ts ih =>
      rw [List.foldl_cons, foldl_addThread, ih, List.flatMap_cons, spread_append]
  rw [step, ← Array.foldl_toList, Frontier.scratch, gathered]
  rfl

/-- A run begins with its own threads only, whatever an earlier one has left in the lists. -/
theorem run_eq {s : Scratch} (idle : s.stack = []) (a : Automaton) (fragment : Fragment)
    (input : List Input) (extent : Extent) : a.run fragment input extent s =
      a.runFrom fragment extent 0 input (a.enter s.claims
        ⟨fragment.start, Array.replicate fragment.slotCount.toNat {}⟩).scratch none := by
  obtain ⟨claims, stack, current, next⟩ := s
  obtain rfl : stack = [] := idle
  rfl

end Automaton

theorem zipIdx_pairwise {α : Type} (l : List α) : l.zipIdx.Pairwise fun x y => x.2 < y.2 := by
  have := List.pairwise_lt_range' (s := 0) (n := l.length)
  rwa [← List.zipIdx_map_snd, List.pairwise_map] at this

def ArcLabel.takes : ArcLabel → List Input → Bool
  | epsilon, [] => true
  | symbols set, [x] => x.accepts set
  | _, _ => false

theorem ArcLabel.takes_iff {l : ArcLabel} {u : List Input} : l.takes u = true ↔ l.Takes u := by
  rcases l with _ | set <;> rcases u with _ | ⟨x, _ | ⟨y, u⟩⟩ <;> simp [takes, Takes]

/-- The node of a thread and the path by which it came there. -/
structure Traced where
  node : Nat
  path : List Step

namespace Traced

def thread (slots : Slots) (t : Traced) : Thread :=
  ⟨t.node, markAll 0 (t.path.map (·.arc)) slots⟩

def follow (t : Traced) (s : Step) : Traced := ⟨s.arc.target, t.path ++ [s]⟩

def next (a : Automaton) (u : List Input) (t : Traced) : List Traced :=
  (a.outgoing t.node).zipIdx.filterMap fun (arc, rank) =>
    if arc.label.takes u then some (t.follow ⟨rank, arc⟩) else none

variable {a : Automaton} {t e : Traced} {u w : List Input} {start : Nat} {slots : Slots}

theorem mem_next_iff : e ∈ t.next a u ↔ ∃ s : Step,
    (a.outgoing t.node)[s.rank]? = some s.arc ∧ s.arc.label.Takes u ∧ e = t.follow s := by
  simp only [next, List.mem_filterMap, Prod.exists, List.mem_zipIdx_iff_getElem?,
    Option.ite_none_right_eq_some, Option.some_inj, ArcLabel.takes_iff]
  constructor
  · rintro ⟨arc, rank, hs, ht, rfl⟩; exact ⟨⟨rank, arc⟩, hs, ht, rfl⟩
  · rintro ⟨⟨rank, arc⟩, hs, ht, rfl⟩; exact ⟨arc, rank, hs, ht, rfl⟩

theorem silent_iff {s : Step} (h : s.arc.label.Takes u) : s.Silent ↔ u = [] := by
  unfold Step.Silent
  cases hl : s.arc.label with
  | epsilon =>
    rw [hl] at h
    exact ⟨fun _ => h, fun _ => rfl⟩
  | symbols set =>
    rw [hl] at h
    obtain ⟨x, rfl, -⟩ := h
    simp

theorem next_pairwise (a : Automaton) (u : List Input) (t : Traced) :
    (t.next a u).Pairwise fun e e' => Ahead e.path e'.path := by
  refine List.pairwise_filterMap.2 ((zipIdx_pairwise _).imp ?_)
  rintro ⟨arc, rank⟩ ⟨arc', rank'⟩ lt e he e' he'
  simp only [Option.ite_none_right_eq_some, Option.some_inj, ArcLabel.takes_iff] at he he'
  obtain ⟨ht, rfl⟩ := he
  obtain ⟨ht', rfl⟩ := he'
  have same : (⟨rank, arc⟩ : Step).Silent ↔ (⟨rank', arc'⟩ : Step).Silent :=
    (silent_iff ht).trans (silent_iff ht').symm
  exact ahead_append_cons _ (Or.inr ⟨same, lt⟩)

theorem path_follow (wf : a.WellFormed) (h : Path a start w t.path t.node) {s : Step}
    (hs : (a.outgoing t.node)[s.rank]? = some s.arc) (ht : s.arc.label.Takes u) :
    Path a start (w ++ u) (t.follow s).path (t.follow s).node := by
  have source := wf.source_eq hs
  exact path_concat_iff.2 ⟨w, u, rfl, source ▸ h, source.symm ▸ hs, ht, rfl⟩

theorem thread_follow (h : Path a start w t.path t.node) (s : Step) :
    (t.follow s).thread slots = ⟨s.arc.target,
      s.arc.mark w.length (s.arc.after w.length) (t.thread slots).slots⟩ := by
  unfold thread follow
  rw [List.map_append, List.map_singleton, h.walk.markAll_append, Nat.zero_add]
  rfl

theorem map_next (h : Path a start w t.path t.node) (slots : Slots) (u : List Input) :
    (t.next a u).map (thread slots) = (a.outgoing t.node).filterMap fun arc =>
      if arc.label.takes u then
        some ⟨arc.target, arc.mark w.length (arc.after w.length) (t.thread slots).slots⟩
      else none := by
  conv_rhs => rw [← List.zipIdx_map_fst 0 (a.outgoing t.node), List.filterMap_map]
  rw [next, List.map_filterMap]
  apply List.filterMap_congr
  intro x _
  by_cases ht : x.1.label.takes u = true
  · simp only [ht, if_true, Option.map_some, Function.comp_apply, thread_follow h]
  · simp [ht]

theorem silentSteps_eq (h : Path a start w t.path t.node) (slots : Slots) :
    a.silentSteps w.length (t.thread slots) = (t.next a []).map (thread slots) := by
  rw [map_next h, Automaton.silentSteps]
  apply List.filterMap_congr
  intro arc _
  cases hl : arc.label <;> simp [ArcLabel.takes, Arc.after, hl]

theorem symbolSteps_eq (h : Path a start w t.path t.node) (slots : Slots) (x : Input) :
    a.symbolSteps w.length x (t.thread slots) = (t.next a [x]).map (thread slots) := by
  rw [map_next h, Automaton.symbolSteps]
  apply List.filterMap_congr
  intro arc _
  cases hl : arc.label <;> simp [ArcLabel.takes, Arc.after, hl]

end Traced

/-! ## What the threads of a step preserve -/

/-- Some thread is at the node of another, by a path that is tried no later. -/
def Traced.Covered (ts : List Traced) (e : Traced) : Prop :=
  ∃ d ∈ ts, d.node = e.node ∧ NoLater d.path e.path

theorem Traced.Covered.mono {ts ts' : List Traced} {e : Traced} (h : e.Covered ts)
    (sub : ts ⊆ ts') : e.Covered ts' := by
  obtain ⟨d, hd, h⟩ := h
  exact ⟨d, sub hd, h⟩

/-- The threads that have claimed their nodes after a word, and those that still wait to. -/
structure Exploring (a : Automaton) (start : Nat) (w : List Input) (done pending : List Traced) :
    Prop where
  path : ∀ e ∈ done ++ pending, Path a start w e.path e.node
  simple : ∀ d ∈ done, Simple d.path
  simple_dropLast : ∀ e ∈ pending, Simple e.path.dropLast
  /-- A thread has come silently from threads that are done. -/
  trail : ∀ e ∈ done ++ pending, ∀ x l n m, e.path = x ++ l → l ≠ [] →
    Walk n [] (l.map (·.arc)) m → ∃ d ∈ done, d.node = n
  distinct : done.Pairwise fun d d' => d.node ≠ d'.node
  order : done.Pairwise fun d d' => NoLater d.path d'.path
  order_pending : ∀ d ∈ done, ∀ e ∈ pending, NoLater d.path e.path
  stack : pending.Pairwise fun e e' => Ahead e.path e'.path
  closed : ∀ d ∈ done, ∀ e ∈ d.next a [], e.Covered (done ++ pending)

namespace Exploring

variable {a : Automaton} {start : Nat} {w : List Input} {done pending rest : List Traced}
  {e : Traced}

theorem covered_skip (inv : Exploring a start w done (e :: rest)) {d : Traced} (hd : d ∈ done)
    (taken : d.node = e.node) {x : Traced} (h : x.Covered (done ++ e :: rest)) :
    x.Covered (done ++ rest) := by
  obtain ⟨c, hc, hn, hle⟩ := h
  rcases List.mem_append.1 hc with hc | hc
  · exact ⟨c, List.mem_append_left _ hc, hn, hle⟩
  · rcases List.mem_cons.1 hc with rfl | hc
    · exact ⟨d, List.mem_append_left _ hd, taken.trans hn,
        (inv.order_pending d hd c List.mem_cons_self).trans hle⟩
    · exact ⟨c, List.mem_append_right _ hc, hn, hle⟩

theorem skip (inv : Exploring a start w done (e :: rest)) {d : Traced} (hd : d ∈ done)
    (taken : d.node = e.node) : Exploring a start w done rest where
  path x hx := inv.path x (by
    rcases List.mem_append.1 hx with hx | hx <;> simp [hx])
  simple := inv.simple
  simple_dropLast x hx := inv.simple_dropLast x (List.mem_cons_of_mem _ hx)
  trail x hx := inv.trail x (by
    rcases List.mem_append.1 hx with hx | hx <;> simp [hx])
  distinct := inv.distinct
  order := inv.order
  order_pending d hd x hx := inv.order_pending d hd x (List.mem_cons_of_mem _ hx)
  stack := (List.pairwise_cons.1 inv.stack).2
  closed d' hd' x hx := inv.covered_skip hd taken (inv.closed d' hd' x hx)

theorem simple_head (inv : Exploring a start w done (e :: rest))
    (fresh : ∀ d ∈ done, d.node ≠ e.node) : Simple e.path := by
  have mem : e ∈ done ++ e :: rest := List.mem_append_right _ List.mem_cons_self
  apply simple_of_dropLast (inv.simple_dropLast e List.mem_cons_self)
  intro x l n hl walk
  by_contra ne
  obtain ⟨d, hd, hn⟩ := inv.trail e mem x l n n hl ne walk
  have path := inv.path e mem
  rw [hl] at path
  exact fresh d hd (hn.trans (path.end_eq ne walk))

/-- Behind a thread that is done, what came silently has come from threads that are done. -/
theorem trail_follow (wf : a.WellFormed) (inv : Exploring a start w done (e :: rest)) {s : Step}
    (hs : (a.outgoing e.node)[s.rank]? = some s.arc) {x l : List Step} {n m : Nat}
    (hl : e.path ++ [s] = x ++ l) (ne : l ≠ []) (walk : Walk n [] (l.map (·.arc)) m) :
    ∃ d ∈ done ++ [e], d.node = n := by
  obtain ⟨l, rfl, hp⟩ := exists_eq_concat hl ne
  obtain ⟨walk, -⟩ := walk.of_concat
  by_cases hnil : l = []
  · subst hnil
    obtain ⟨-, rfl⟩ := walk_nil_iff.1 walk
    exact ⟨e, by simp, (wf.source_eq hs).symm⟩
  · have mem : e ∈ done ++ e :: rest := List.mem_append_right _ List.mem_cons_self
    obtain ⟨d, hd, hn⟩ := inv.trail e mem x l _ _ hp hnil walk
    exact ⟨d, List.mem_append_left _ hd, hn⟩

/-- A thread that finds its node free is done, and what it turns into silently waits in its
place. -/
theorem push (wf : a.WellFormed) (inv : Exploring a start w done (e :: rest))
    (fresh : ∀ d ∈ done, d.node ≠ e.node) :
    Exploring a start w (done ++ [e]) (e.next a [] ++ rest) := by
  have mem : e ∈ done ++ e :: rest := List.mem_append_right _ List.mem_cons_self
  have cases_done {x : Traced} (hx : x ∈ done ++ [e]) : x ∈ done ∨ x = e := by
    simpa using hx
  have cases_all {x : Traced} (hx : x ∈ (done ++ [e]) ++ (e.next a [] ++ rest)) :
      x ∈ done ++ e :: rest ∨ x ∈ e.next a [] := by
    simp only [List.mem_append, List.mem_cons, List.not_mem_nil, or_false] at hx ⊢
    tauto
  have sub : done ++ e :: rest ⊆ (done ++ [e]) ++ (e.next a [] ++ rest) := by
    intro x hx
    simp only [List.mem_append, List.mem_cons, List.not_mem_nil, or_false] at hx ⊢
    tauto
  have stack := List.pairwise_cons.1 inv.stack
  constructor
  case path =>
    intro x hx
    rcases cases_all hx with hx | hx
    · exact inv.path x hx
    · obtain ⟨s, hs, ht, rfl⟩ := Traced.mem_next_iff.1 hx
      have := Traced.path_follow wf (inv.path e mem) hs ht
      rwa [List.append_nil] at this
  case simple =>
    intro x hx
    rcases cases_done hx with hx | rfl
    · exact inv.simple x hx
    · exact inv.simple_head fresh
  case simple_dropLast =>
    intro x hx
    rcases List.mem_append.1 hx with hx | hx
    · obtain ⟨s, -, -, rfl⟩ := Traced.mem_next_iff.1 hx
      rw [Traced.follow, List.dropLast_concat]
      exact inv.simple_head fresh
    · exact inv.simple_dropLast x (List.mem_cons_of_mem _ hx)
  case trail =>
    intro x hx y l n m hl ne walk
    rcases cases_all hx with hx | hx
    · obtain ⟨d, hd, hn⟩ := inv.trail x hx y l n m hl ne walk
      exact ⟨d, List.mem_append_left _ hd, hn⟩
    · obtain ⟨s, hs, -, rfl⟩ := Traced.mem_next_iff.1 hx
      exact inv.trail_follow wf hs hl ne walk
  case distinct =>
    refine List.pairwise_append.2 ⟨inv.distinct, List.pairwise_singleton _ _, fun d hd x hx => ?_⟩
    rw [List.mem_singleton.1 hx]
    exact fresh d hd
  case order =>
    refine List.pairwise_append.2 ⟨inv.order, List.pairwise_singleton _ _, fun d hd x hx => ?_⟩
    rw [List.mem_singleton.1 hx]
    exact inv.order_pending d hd e List.mem_cons_self
  case order_pending =>
    intro d hd x hx
    have hle : NoLater d.path e.path := by
      rcases cases_done hd with hd | rfl
      · exact inv.order_pending d hd e List.mem_cons_self
      · exact Or.inl rfl
    rcases List.mem_append.1 hx with hx | hx
    · obtain ⟨s, -, -, rfl⟩ := Traced.mem_next_iff.1 hx
      exact hle.append_right [s]
    · exact hle.trans (stack.1 x hx).noLater
  case stack =>
    refine List.pairwise_append.2 ⟨e.next_pairwise a [], stack.2, fun x hx y hy => ?_⟩
    obtain ⟨s, -, -, rfl⟩ := Traced.mem_next_iff.1 hx
    have := (stack.1 y hy).append [s] []
    rwa [List.append_nil] at this
  case closed =>
    intro d hd x hx
    rcases cases_done hd with hd | rfl
    · exact (inv.closed d hd x hx).mono sub
    · exact ⟨x, by simp [hx], rfl, Or.inl rfl⟩

end Exploring

/-! ## The threads after each symbol -/

/-- The claims of a step are those of the threads that are done. -/
structure Claimed (a : Automaton) (done : List Traced) (claims : Claims) : Prop where
  size : claims.stamps.size = a.nodeCount
  free_iff : ∀ n, claims.free n = true ↔ n < a.nodeCount ∧ ∀ d ∈ done, d.node ≠ n

structure Shows (a : Automaton) (slots : Slots) (done : List Traced) (f : Automaton.Frontier) :
    Prop where
  claimed : Claimed a done f.claims
  threads : f.threads.toList = done.map (Traced.thread slots)

section Rounds

variable {a : Automaton} {start : Nat} {w : List Input} {done pending : List Traced}
  {claims : Claims} {slots : Slots}

theorem claimed_advance (size : claims.stamps.size = a.nodeCount) (fresh : claims.advance.Fresh) :
    Claimed a [] claims.advance where
  size := size
  free_iff n := by
    have size : claims.advance.stamps.size = a.nodeCount := size
    simp [fresh.free_eq, size]

theorem Claimed.claim (h : Claimed a done claims) (e : Traced) :
    Claimed a (done ++ [e]) (claims.claim e.node) where
  size := by rw [Claims.claim, Array.size_setIfInBounds]; exact h.size
  free_iff n := by
    rw [Claims.free_claim, Bool.and_eq_true, h.free_iff, decide_eq_true_eq, and_assoc]
    apply and_congr_right
    intro _
    simp only [List.mem_append, List.mem_singleton, or_imp, forall_and, forall_eq]
    exact and_congr_right fun _ => ne_comm

theorem Exploring.spread (wf : a.WellFormed) (hstart : start < a.nodeCount)
    {f : Automaton.Frontier} (inv : Exploring a start w done pending)
    (shows : Shows a slots done f) :
    ∃ done', Exploring a start w done' [] ∧
      Shows a slots done' (a.spread w.length f (pending.map (Traced.thread slots))) ∧
      ∀ x : Traced, x.Covered (done ++ pending) → x.Covered done' := by
  generalize hs : pending.map (Traced.thread slots) = stack
  induction f, stack using Automaton.spread.induct a w.length generalizing done pending with
  | case1 f =>
    obtain rfl := List.map_eq_nil_iff.1 hs
    rw [Automaton.spread_nil]
    exact ⟨done, inv, shows, fun x h => by rwa [List.append_nil] at h⟩
  | case2 f t stack free ih =>
    obtain ⟨e, rest, rfl, rfl, rfl⟩ := List.map_eq_cons_iff.1 hs
    have fresh := ((shows.claimed.free_iff e.node).1 free).2
    have path := inv.path e (List.mem_append_right _ List.mem_cons_self)
    rw [Automaton.spread_cons_of_free free]
    have shows' : Shows a slots (done ++ [e])
        ⟨f.claims.claim (e.thread slots).node, f.threads.push (e.thread slots)⟩ :=
      ⟨shows.claimed.claim e, by simp [shows.threads]⟩
    obtain ⟨done', inv', shows', cov⟩ := ih (inv.push wf fresh) shows'
      (by rw [List.map_append, Traced.silentSteps_eq path])
    refine ⟨done', inv', shows', fun x hx => cov x (hx.mono fun y hy => ?_)⟩
    simp only [List.mem_append, List.mem_cons, List.not_mem_nil, or_false] at hy ⊢
    tauto
  | case3 f t stack taken ih =>
    obtain ⟨e, rest, rfl, rfl, rfl⟩ := List.map_eq_cons_iff.1 hs
    have path := inv.path e (List.mem_append_right _ List.mem_cons_self)
    obtain ⟨d, hd, hn⟩ : ∃ d ∈ done, d.node = e.node := by
      by_contra fresh
      push Not at fresh
      exact taken ((shows.claimed.free_iff e.node).2 ⟨path.lt_nodeCount wf hstart, fresh⟩)
    rw [Automaton.spread_cons_of_taken taken]
    obtain ⟨done', inv', shows', cov⟩ := ih (inv.skip hd hn) shows rfl
    exact ⟨done', inv', shows', fun x hx => cov x (inv.covered_skip hd hn hx)⟩

/-- Of two threads, the one that is tried before the other goes on before it with a symbol. -/
theorem ahead_follow {d d' : Traced} (h : Path a start w d.path d.node)
    (h' : Path a start w d'.path d'.node) (hle : NoLater d.path d'.path) (ne : d.node ≠ d'.node)
    {s : Step} {x : Input} (hs : s.arc.label.Takes [x]) (s' : Step) :
    Ahead (d.follow s).path (d'.follow s').path := by
  have lex : List.Lex Step.Sooner d.path d'.path := by
    refine hle.resolve_left fun hp => ne ?_
    have := h.walk
    rw [hp] at this
    exact (this.unique h'.walk).1
  by_cases hpre : d.path <+: d'.path
  · -- the later thread has come silently from the earlier one, which takes its symbol first
    obtain ⟨r, hr⟩ := hpre
    have walk := h'.walk
    rw [← hr, List.map_append] at walk
    have rest := h.walk.silent_rest walk
    cases r with
    | nil => exact absurd ((walk_nil_iff.1 rest).2) ne
    | cons t r =>
      obtain ⟨-, u, v, huv, ht, -⟩ := walk_cons_iff.1 rest
      obtain ⟨rfl, -⟩ := List.append_eq_nil_iff.1 huv.symm
      have loud : ¬ s.Silent := fun h => by cases (Traced.silent_iff hs).1 h
      have silent : t.Silent := (Traced.silent_iff ht).2 rfl
      rw [Traced.follow, Traced.follow, ← hr, List.append_assoc, List.cons_append]
      exact ahead_append_cons d.path (Or.inl ⟨loud, silent⟩)
  · exact Ahead.append ⟨lex, hpre⟩ [s] [s']

theorem Exploring.next (wf : a.WellFormed) (inv : Exploring a start w done []) (x : Input) :
    Exploring a start (w ++ [x]) [] (done.flatMap (Traced.next a [x])) := by
  have path : ∀ d ∈ done, Path a start w d.path d.node :=
    fun d hd => inv.path d (List.mem_append_left _ hd)
  have mem {e : Traced} (he : e ∈ done.flatMap (Traced.next a [x])) : ∃ d ∈ done, ∃ s : Step,
      (a.outgoing d.node)[s.rank]? = some s.arc ∧ s.arc.label.Takes [x] ∧ e = d.follow s := by
    obtain ⟨d, hd, he⟩ := List.mem_flatMap.1 he
    exact ⟨d, hd, Traced.mem_next_iff.1 he⟩
  constructor
  case path =>
    intro e he
    obtain ⟨d, hd, s, hs, ht, rfl⟩ := mem he
    exact Traced.path_follow wf (path d hd) hs ht
  case simple_dropLast =>
    intro e he
    obtain ⟨d, hd, s, -, -, rfl⟩ := mem he
    rw [Traced.follow, List.dropLast_concat]
    exact inv.simple d hd
  case trail =>
    -- no silent walk ends with the symbol
    intro e he y l n m hl ne walk
    obtain ⟨d, hd, s, -, ht, rfl⟩ := mem he
    obtain ⟨l, rfl, -⟩ := exists_eq_concat hl ne
    have silent := (Traced.silent_iff walk.of_concat.2).2 rfl
    cases (Traced.silent_iff ht).1 silent
  case stack =>
    refine List.pairwise_flatMap.2 ⟨fun d _ => d.next_pairwise a [x], ?_⟩
    refine (inv.order.and inv.distinct).imp_of_mem fun {d d'} hd hd' h e he e' he' => ?_
    obtain ⟨s, -, hs, rfl⟩ := Traced.mem_next_iff.1 he
    obtain ⟨s', -, -, rfl⟩ := Traced.mem_next_iff.1 he'
    exact ahead_follow (path d hd) (path d' hd') h.1 h.2 hs s'
  case distinct => exact .nil
  case order => exact .nil
  case simple | order_pending | closed => exact fun _ h => absurd h List.not_mem_nil

/-- The threads that are there after each word, with their paths from the start. -/
inductive Rounds (a : Automaton) (start : Nat) : List Input → List Traced → Prop where

  | first {done : List Traced} : Exploring a start [] done [] → Traced.Covered done ⟨start, []⟩ →
      Rounds a start [] done

  | next {w : List Input} {x : Input} {done done' : List Traced} : Rounds a start w done →
      Exploring a start (w ++ [x]) done' [] →
      (∀ d ∈ done, ∀ e ∈ d.next a [x], e.Covered done') → Rounds a start (w ++ [x]) done'

theorem Rounds.exploring (h : Rounds a start w done) : Exploring a start w done [] := by
  cases h with
  | first inv _ => exact inv
  | next _ inv _ => exact inv

theorem rounds_enter (wf : a.WellFormed) (hstart : start < a.nodeCount)
    (size : claims.stamps.size = a.nodeCount) (fresh : claims.advance.Fresh) (slots : Slots) :
    ∃ done, Rounds a start [] done ∧ Shows a slots done (a.enter claims ⟨start, slots⟩) := by
  have inv : Exploring a start [] [] [⟨start, []⟩] := by
    constructor
    case path =>
      intro e he
      obtain rfl := List.mem_singleton.1 he
      exact path_nil_iff.2 ⟨rfl, rfl⟩
    case simple_dropLast =>
      intro e he
      obtain rfl := List.mem_singleton.1 he
      exact simple_nil
    case trail =>
      intro e he x l n m hl ne
      obtain rfl := List.mem_singleton.1 he
      exact absurd (List.append_eq_nil_iff.1 hl.symm).2 ne
    case distinct => exact .nil
    case order => exact .nil
    case stack => exact List.pairwise_singleton _ _
    case simple | order_pending | closed => exact fun _ h => absurd h List.not_mem_nil
  have none : Shows a slots [] ⟨claims.advance, #[]⟩ := ⟨claimed_advance size fresh, rfl⟩
  obtain ⟨done, inv, shows, cov⟩ := inv.spread wf hstart none
  exact ⟨done, .first inv (cov _ ⟨_, List.mem_singleton_self _, rfl, Or.inl rfl⟩), shows⟩

theorem Rounds.advance (wf : a.WellFormed) (hstart : start < a.nodeCount)
    (h : Rounds a start w done) {f : Automaton.Frontier} (shows : Shows a slots done f)
    (fresh : f.claims.advance.Fresh) (x : Input) : ∃ done', Rounds a start (w ++ [x]) done' ∧
      Shows a slots done' (a.advance w.length x f) := by
  have inv := h.exploring
  have stack : f.threads.toList.flatMap (a.symbolSteps w.length x) =
      (done.flatMap (Traced.next a [x])).map (Traced.thread slots) := by
    rw [shows.threads, List.flatMap_map, List.map_flatMap]
    apply List.flatMap_congr
    intro d hd
    exact Traced.symbolSteps_eq (inv.path d (List.mem_append_left _ hd)) slots x
  have none : Shows a slots [] ⟨f.claims.advance, #[]⟩ :=
    ⟨claimed_advance shows.claimed.size fresh, rfl⟩
  obtain ⟨done', inv', shows', cov⟩ := (inv.next wf x).spread wf hstart none
  rw [List.length_append, List.length_singleton, ← stack] at shows'
  refine ⟨done', h.next inv' fun d hd e he => cov e ?_, shows'⟩
  exact ⟨e, List.mem_flatMap.2 ⟨d, hd, he⟩, rfl, Or.inl rfl⟩

theorem NoLater.concat {p q : List Step} {m : Nat} (h : NoLater p q) (hp : Path a start w p m)
    (hq : Path a start w q m) (simple : Simple q) (s : Step) : NoLater (p ++ [s]) (q ++ [s]) := by
  rcases h with rfl | h
  · exact Or.inl rfl
  · by_cases hpre : p <+: q
    · obtain ⟨r, rfl⟩ := hpre
      rw [simple.eq_of_append hp hq, List.append_nil]
      exact Or.inl rfl
    · exact (Ahead.append ⟨h, hpre⟩ [s] [s]).noLater

/-- A thread is where a path leads, and is tried no later than the path if that is simple. -/
def Reached (ts : List Traced) (p : List Step) (m : Nat) : Prop :=
  ∃ d ∈ ts, d.node = m ∧ (Simple p → NoLater d.path p)

theorem Exploring.reached_follow (inv : Exploring a start w done []) {ts : List Traced}
    {p : List Step} {s : Step} (hp : Path a start w p s.arc.source)
    (reached : Reached done p s.arc.source)
    (cov : ∀ d ∈ done, d.node = s.arc.source → (d.follow s).Covered ts) :
    Reached ts (p ++ [s]) s.arc.target := by
  obtain ⟨d, hd, hn, hle⟩ := reached
  obtain ⟨d', hd', hn', hle'⟩ := cov d hd hn
  refine ⟨d', hd', hn', fun simple => hle'.trans ?_⟩
  have simple := simple.of_append
  have path := inv.path d (List.mem_append_left _ hd)
  exact (hle simple).concat (hn ▸ path) hp simple s

theorem Exploring.reached_silent (inv : Exploring a start w done []) {p : List Step} {s : Step}
    (hp : Path a start w p s.arc.source)
    (hs : (a.outgoing s.arc.source)[s.rank]? = some s.arc) (ht : s.arc.label.Takes [])
    (reached : Reached done p s.arc.source) : Reached done (p ++ [s]) s.arc.target := by
  apply inv.reached_follow hp reached
  intro d hd hn
  have := inv.closed d hd (d.follow s) (Traced.mem_next_iff.2 ⟨s, hn ▸ hs, ht, rfl⟩)
  rwa [List.append_nil] at this

/-- A thread is wherever a path leads, and no simple path is tried before that of the thread. -/
theorem Rounds.reaches (h : Rounds a start w done) {p : List Step} {m : Nat}
    (hp : Path a start w p m) : Reached done p m := by
  -- what a path continues is reached by the induction hypothesis, of words or of paths
  induction h generalizing p m with
  | first inv cov =>
    induction p using List.reverseRecOn generalizing m with
    | nil =>
      obtain ⟨-, rfl⟩ := path_nil_iff.1 hp
      obtain ⟨d, hd, hn, hle⟩ := cov
      exact ⟨d, hd, hn, fun _ => hle⟩
    | append_singleton p s ih =>
      obtain ⟨u, v, huv, hp, hs, ht, rfl⟩ := path_concat_iff.1 hp
      obtain ⟨rfl, rfl⟩ := List.append_eq_nil_iff.1 huv.symm
      exact inv.reached_silent hp hs ht (ih hp)
  | @next w x done done' h inv cov ihw =>
    induction p using List.reverseRecOn generalizing m with
    | nil => exact absurd (path_nil_iff.1 hp).1 (by simp)
    | append_singleton p s ih =>
      obtain ⟨u, v, huv, hp, hs, ht, rfl⟩ := path_concat_iff.1 hp
      cases hl : s.arc.label with
      | epsilon =>
        obtain rfl : v = [] := by rwa [hl] at ht
        rw [List.append_nil] at huv
        subst huv
        exact inv.reached_silent hp hs ht (ih hp)
      | symbols set =>
        obtain ⟨y, rfl, -⟩ : (ArcLabel.symbols set).Takes v := hl ▸ ht
        obtain ⟨rfl, hxy⟩ := List.append_inj' huv rfl
        rw [← hxy] at ht
        apply h.exploring.reached_follow hp (ihw hp)
        intro d hd hn
        exact cov d hd (d.follow s) (Traced.mem_next_iff.2 ⟨s, hn ▸ hs, ht, rfl⟩)

end Rounds

end SymbolRegex
