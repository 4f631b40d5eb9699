import TaggedBuffer.Proofs.Buffer.Canonical
import TaggedBuffer.Proofs.Buffer.Demand
import TaggedBuffer.Proofs.Buffer.Room

namespace TaggedBuffer

open Content (encoded Lists lists_iff_packed)
open Buffer (pairsSize checkEntry)

structure Accepted (pair : Pair) : Prop where
  name : ∀ name, pair.1 = some name →
    1 ≤ name.utf8ByteSize ∧ name.utf8ByteSize ≤ maxNameLength
  value : pair.2.encodedLength ≤ maxEncodedLength

/-- What is wrong with an entry. A name is looked at before the value. -/
inductive Refused : Pair → Error → Prop
  | emptyName {v : Value} : Refused (some "", v) .emptyName
  | longName {name : String} {v : Value} : maxNameLength < name.utf8ByteSize →
      Refused (some name, v) (.nameTooLong name.utf8ByteSize)
  | largeValue {name : Option String} {v : Value} :
      (∀ n, name = some n → 1 ≤ n.utf8ByteSize ∧ n.utf8ByteSize ≤ maxNameLength) →
      maxEncodedLength < v.encodedLength → Refused (name, v) (.valueTooLarge v.encodedLength)

section Checks

variable {pair : Pair} {e : Error}

theorem accepted_iff : Accepted pair ↔ checkEntry pair.1 pair.2 = .ok () := by
  rw [Content.checkEntry_ok_iff, checkValue_ok_iff]
  simp only [checkName_ok_iff]
  exact ⟨fun h => ⟨h.name, h.value⟩, fun h => ⟨h.1, h.2⟩⟩

theorem Refused.checkEntry (h : Refused pair e) : checkEntry pair.1 pair.2 = .error e := by
  cases h with
  | emptyName => rfl
  | @longName name v hlong =>
    have hname : checkName name = .error (.nameTooLong name.utf8ByteSize) := by
      rw [checkName, if_neg (by omega), if_pos hlong]
    rw [Buffer.checkEntry, hname]
    rfl
  | @largeValue name v hn hlarge =>
    have hvalue : checkValue v = .error (.valueTooLarge v.encodedLength) := if_pos hlarge
    cases name with
    | none => exact hvalue
    | some name =>
      have hname : checkName name = .ok () := checkName_ok_iff.2 (hn name rfl)
      rw [Buffer.checkEntry, hname]
      exact hvalue

theorem exists_refused (h : ¬ Accepted pair) : ∃ e, Refused pair e := by
  obtain ⟨name?, v⟩ := pair
  by_cases hname : ∀ n, name? = some n → 1 ≤ n.utf8ByteSize ∧ n.utf8ByteSize ≤ maxNameLength
  · have hlarge : maxEncodedLength < v.encodedLength :=
      Nat.lt_of_not_le fun hle => h ⟨hname, hle⟩
    exact ⟨_, .largeValue hname hlarge⟩
  · obtain ⟨name, hname⟩ := Classical.not_forall.1 hname
    obtain ⟨rfl, hsize⟩ := Classical.not_imp.1 hname
    by_cases hlong : maxNameLength < name.utf8ByteSize
    · exact ⟨_, .longName hlong⟩
    · obtain rfl : name = "" := String.utf8ByteSize_eq_zero_iff.1 (by omega)
      exact ⟨_, .emptyName⟩

theorem exists_first_refused {pairs : List Pair} (h : ¬ ∀ pair ∈ pairs, Accepted pair) :
    ∃ pre pair post e, pairs = pre ++ pair :: post ∧ (∀ p ∈ pre, Accepted p) ∧ Refused pair e := by
  induction pairs with
  | nil => exact (h (List.forall_mem_nil _)).elim
  | cons pair pairs ih =>
    by_cases hpair : Accepted pair
    · have hrest : ¬ ∀ p ∈ pairs, Accepted p := fun hrest =>
        h (List.forall_mem_cons.2 ⟨hpair, hrest⟩)
      obtain ⟨pre, bad, post, e, rfl, hpre, hbad⟩ := ih hrest
      exact ⟨pair :: pre, bad, post, e, rfl, List.forall_mem_cons.2 ⟨hpair, hpre⟩, hbad⟩
    · obtain ⟨e, he⟩ := exists_refused hpair
      exact ⟨[], pair, pairs, e, rfl, List.forall_mem_nil _, he⟩

end Checks

namespace Buffer

variable {σ : Type} [Store σ] {s : σ}

theorem appendAll_append {xs : List Pair} {s' : σ} (h : appendAll xs s = .ok () s')
    (ys : List Pair) : appendAll (xs ++ ys) s = appendAll ys s' := by
  induction xs generalizing s with
  | nil =>
    cases h
    rfl
  | cons x xs ih =>
    obtain ⟨p, s₁, h₁, hrest⟩ := Update.exists_of_bind_ok h
    exact (Update.bind_of_ok h₁).trans (ih hrest)

theorem appendAll_refused {pair : Pair} {e : Error} (h : Refused pair e) (rest : List Pair) :
    appendAll (pair :: rest) s = .error e s :=
  Update.bind_of_error (Update.bind_check_error h.checkEntry)

end Buffer

def Flavor.fresh (heap : Heap) : (f : Flavor) → f.Storage
  | owned => Owned.empty
  | shared => Shared.empty heap
  | borrowed => Borrowed.empty

/-- Nothing in it, and no region of other handles. -/
structure IsFresh {σ : Type} [Store σ] [Placed σ] (s : σ) : Prop where
  content : Store.content s = .empty
  capacity : Store.capacity s = 0
  alone : Placed.Alone s

theorem Flavor.isFresh (heap : Heap) (f : Flavor) : IsFresh (f.fresh heap) := by
  cases f with
  | owned => exact ⟨rfl, rfl, trivial⟩
  | shared => exact ⟨rfl, rfl, Nat.zero_le 1⟩
  | borrowed => exact ⟨rfl, rfl, trivial⟩

namespace Builder

inductive Request where
  | withCapacity (capacity : Nat)
  | named (name : String) (v : Value)
  | value (v : Value)
  | addSection (name : String) (vs : List Value)

namespace Request

def apply : Request → Builder → Builder
  | withCapacity capacity => Builder.withCapacity capacity
  | named name v => Builder.named name v
  | value v => Builder.value v
  | addSection name vs => Builder.addSection name vs

/-- The entries to be written. The name of a section goes to its first value, and to nothing in a
section without values. -/
def pairs : Request → List Pair
  | withCapacity _ | addSection _ [] => []
  | named name v => [(some name, v)]
  | value v => [(none, v)]
  | addSection name (v :: vs) => (some name, v) :: vs.map (none, ·)

def capacity? : Request → Option Nat
  | withCapacity capacity => some capacity
  | _ => none

theorem pairs_apply (r : Request) (b : Builder) : (r.apply b).pairs = b.pairs ++ r.pairs := by
  cases r with
  | withCapacity capacity => exact (List.append_nil _).symm
  | named name v => rfl
  | value v => rfl
  | addSection name vs => cases vs <;> rfl

theorem capacity_apply (r : Request) (b : Builder) :
    (r.apply b).capacity = r.capacity?.or b.capacity := by
  cases r <;> rfl

end Request

def of (requests : List Request) : Builder := requests.foldl (fun b r => r.apply b) empty

/-- All entries are kept in order, and of the capacities the last. -/
theorem foldl_apply (requests : List Request) (b : Builder) :
    requests.foldl (fun b r => r.apply b) b =
      ⟨(requests.filterMap Request.capacity?).getLast?.or b.capacity,
        b.pairs ++ requests.flatMap Request.pairs⟩ := by
  induction requests generalizing b with
  | nil => exact congrArg (Builder.mk b.capacity) (List.append_nil _).symm
  | cons r requests ih =>
    have hlast : ((r :: requests).filterMap Request.capacity?).getLast?.or b.capacity =
        (requests.filterMap Request.capacity?).getLast?.or (r.capacity?.or b.capacity) := by
      cases hr : r.capacity? with
      | none => rw [List.filterMap_cons_none hr, Option.none_or]
      | some c =>
        rw [List.filterMap_cons_some hr, List.getLast?_cons, Option.some_or, Option.some_or]
        cases (requests.filterMap Request.capacity?).getLast? <;> rfl
    rw [List.foldl_cons, ih, r.pairs_apply, r.capacity_apply, hlast, List.flatMap_cons,
      List.append_assoc]

theorem of_eq (requests : List Request) : of requests =
    ⟨(requests.filterMap Request.capacity?).getLast?, requests.flatMap Request.pairs⟩ := by
  rw [of, foldl_apply]
  exact congrArg (Builder.mk · _) Option.or_none

/-- The number of bytes that room is made for: what was asked for, or what the entries take. -/
def demand (b : Builder) : Nat := max (b.capacity.getD 0) (pairsSize b.pairs)

section Build

variable {σ : Type} [Store σ] [LawfulStore σ] [Placed σ] {s s₁ : σ} {b : Builder}

omit [LawfulStore σ] [Placed σ] in
theorem build_eq (b : Builder) (s : σ) : b.build s =
    (Buffer.withCapacity b.demand >>= fun _ => Buffer.appendAll b.pairs : Update σ Unit) s := by
  have hdemand : max (b.capacity.getD (pairsSize b.pairs)) (pairsSize b.pairs) = b.demand := by
    rw [demand]
    cases b.capacity with
    | none => exact (Nat.max_self _).trans (Nat.zero_max _).symm
    | some c => rfl
  rw [build, hdemand]

omit [LawfulStore σ] [Placed σ] in
theorem withCapacity_of_ok {n : Nat} {moved : Bool} (h : Store.reserve n s = .ok moved s₁) :
    Buffer.withCapacity n s = .ok () s₁ :=
  Update.bind_of_ok h

/-- The region that is made before the entries are added. -/
structure Made (b : Builder) (s start : σ) (c : Nat) : Prop where
  run : Buffer.withCapacity b.demand s = .ok () start
  stays : Stays c (Placed.place start) start
  empty : Store.content start = .empty
  enough : b.demand ≤ c
  zero : b.demand = 0 → c = 0
  grown : b.demand ≠ 0 → growCapacity b.demand = .ok c

theorem exists_made (hs : IsFresh s) (hroom : HasRoom 0 b.demand) : ∃ start c, Made b s start c := by
  obtain ⟨c, hc⟩ := roomFor_ok_iff.2 hroom
  have hmade := hc
  rw [← hs.capacity] at hmade
  obtain ⟨moved, start, h, hcontent, -, hcap⟩ := LawfulStore.reserve_ok hmade
  refine ⟨start, c, withCapacity_of_ok h, ⟨(Placed.reserve_ok h).1, hcap, rfl⟩,
    hcontent.trans hs.content, le_of_roomFor hc, fun hzero => ?_, fun hne => ?_⟩
  · rw [hzero] at hc
    exact (Except.ok.inj hc).symm
  · rw [roomFor, if_neg (by omega)] at hc
    obtain ⟨padded, hgrow, hlimit⟩ := bind_eq_ok.1 hc
    split at hlimit
    · cases hlimit
      exact hgrow
    · cases hlimit

namespace Made

variable {start s' : σ} {c : Nat} {xs ys : List Pair}

omit [LawfulStore σ] in
theorem build (h : Made b s start c) : b.build s = Buffer.appendAll b.pairs start :=
  (build_eq b s).trans (Update.bind_of_ok h.run)

theorem first (h : Made b s start c) (hsplit : b.pairs = xs ++ ys)
    (hx : ∀ pair ∈ xs, Accepted pair) : ∃ s', Buffer.appendAll xs start = .ok () s' ∧
      Stays c (Placed.place start) s' ∧ Store.content s' = encoded xs := by
  have hc : pairsSize b.pairs ≤ c := Nat.le_trans (Nat.le_max_right _ _) h.enough
  rw [hsplit, Content.pairsSize_append] at hc
  have hmod : (Store.content start).size % 4 = 0 := by rw [h.empty]; rfl
  have hroom : (Store.content start).size + pairsSize xs ≤ c := by
    rw [h.empty, ByteArray.size_empty]
    omega
  obtain ⟨s', hrun, hstays, hcontent⟩ := Buffer.appendAll_in_place h.stays hmod
    (fun pair hp => accepted_iff.1 (hx pair hp)) hroom
  rw [h.empty, ByteArray.empty_append] at hcontent
  exact ⟨s', hrun, hstays, hcontent⟩

theorem next (h : Made b s start c) {name : Option String} {v : Value}
    (hsplit : b.pairs = xs ++ (name, v) :: ys) (hx : ∀ pair ∈ xs, Accepted pair) :
    ∃ s', Buffer.appendAll xs start = .ok () s' ∧
      Store.reserve (Store.used s' + entrySize name v) s' = .ok false s' := by
  obtain ⟨s', hrun, hstays, hcontent⟩ := h.first hsplit hx
  refine ⟨s', hrun, hstays.reserve ?_⟩
  have hc : pairsSize b.pairs ≤ c := Nat.le_trans (Nat.le_max_right _ _) h.enough
  rw [hsplit, Content.pairsSize_append, Content.pairsSize_cons] at hc
  dsimp only at hc
  rw [← Store.size_content, hcontent, Content.size_encoded]
  omega

theorem refused (h : Made b s start c) (hnot : ¬ ∀ pair ∈ b.pairs, Accepted pair) :
    ∃ pre pair post e s', b.pairs = pre ++ pair :: post ∧ (∀ p ∈ pre, Accepted p) ∧
      Refused pair e ∧ b.build s = .error e s' := by
  obtain ⟨pre, pair, post, e, hsplit, hpre, hpair⟩ := exists_first_refused hnot
  obtain ⟨s', hrun, -⟩ := h.first hsplit hpre
  refine ⟨pre, pair, post, e, s', hsplit, hpre, hpair, ?_⟩
  rw [h.build, hsplit, Buffer.appendAll_append hrun]
  exact Buffer.appendAll_refused hpair post

theorem accepted (h : Made b s start c) (hrun : b.build s = .ok () s') :
    ∀ pair ∈ b.pairs, Accepted pair := by
  apply Classical.byContradiction
  intro hnot
  obtain ⟨_, _, _, _, _, -, -, -, herror⟩ := h.refused hnot
  cases hrun.symm.trans herror

theorem exists_built (h : Made b s start c) (hacc : ∀ pair ∈ b.pairs, Accepted pair) :
    ∃ s', b.build s = .ok () s' ∧ Stays c (Placed.place start) s' ∧
      Store.content s' = encoded b.pairs := by
  rw [h.build]
  exact h.first (List.append_nil b.pairs).symm hacc

theorem built (h : Made b s start c) (hrun : b.build s = .ok () s') :
    Store.capacity s' = c ∧ Store.content s' = encoded b.pairs := by
  obtain ⟨s'', hrun', hstays, hcontent⟩ := h.exists_built (h.accepted hrun)
  cases hrun.symm.trans hrun'
  exact ⟨hstays.capacity, hcontent⟩

end Made

omit [Placed σ] in
theorem appendAll_fresh (hcontent : Store.content s = .empty) (hcap : Store.capacity s = 0)
    (hroom : HasRoom 0 b.demand) (hacc : ∀ pair ∈ b.pairs, Accepted pair) :
    ∃ s', Buffer.appendAll b.pairs s = .ok () s' ∧ Store.content s' = encoded b.pairs := by
  have hmod : (Store.content s).size % 4 = 0 := by rw [hcontent]; rfl
  have hbound : (Store.content s).size + pairsSize b.pairs ≤ b.demand := by
    rw [hcontent, ByteArray.size_empty, Nat.zero_add]
    exact Nat.le_max_right _ _
  have hrun := Buffer.appendAll_within hmod (fun pair hp => accepted_iff.1 (hacc pair hp)) hbound
  obtain ⟨_, s', happended, hcontent'⟩ := hrun.exists_ok (hcap.symm ▸ hroom)
  rw [hcontent, ByteArray.empty_append] at hcontent'
  exact ⟨s', happended, hcontent'⟩

omit [Placed σ] in
theorem build_full (hs : Store.capacity s = 0) (h : ¬ HasRoom 0 b.demand) :
    ∃ e, b.build s = .error e s ∧ e.IsAllocation := by
  rw [← hs] at h
  cases hr : roomFor (Store.capacity s) b.demand with
  | ok c => exact (h (roomFor_ok_iff.1 ⟨c, hr⟩)).elim
  | error e =>
    refine ⟨e, ?_, roomFor_error hr⟩
    have hcapacity : Buffer.withCapacity b.demand s = .error e s :=
      Update.bind_of_error (LawfulStore.reserve_error hr)
    rw [build_eq, Update.bind_of_error hcapacity]

end Build

end Builder

/-- A builder fails if no region can be made, else for the first entry that is not accepted, and
else makes what adding the entries one by one makes, in a region that is made once. -/
theorem build_collected (requests : List Builder.Request) (f : Flavor) (heap : Heap) :
    let pairs := requests.flatMap Builder.Request.pairs
    let most := max ((requests.filterMap Builder.Request.capacity?).getLast?.getD 0) (pairsSize pairs)
    let build : Update f.Storage Unit := (Builder.of requests).build
    (¬ HasRoom 0 most → ∃ e, build (f.fresh heap) = .error e (f.fresh heap) ∧ e.IsAllocation) ∧
    (HasRoom 0 most →
      ((∃ s, build (f.fresh heap) = .ok () s) ↔ ∀ pair ∈ pairs, Accepted pair) ∧
      ((¬ ∀ pair ∈ pairs, Accepted pair) → ∃ pre pair post e s, pairs = pre ++ pair :: post ∧
        (∀ p ∈ pre, Accepted p) ∧ Refused pair e ∧ build (f.fresh heap) = .error e s) ∧
      ∀ s, build (f.fresh heap) = .ok () s →
        (∃ s', Buffer.appendAll pairs (f.fresh heap) = .ok () s' ∧
          Store.content s' = Store.content s) ∧
        Store.content s = encoded pairs ∧
        ((∀ pair ∈ pairs, pair.2.WellFormed) → Lists (Store.content s) pairs) ∧
        Store.used s = pairsSize pairs ∧
        (most = 0 → Store.capacity s = 0) ∧
        (most ≠ 0 → growCapacity most = .ok (Store.capacity s)) ∧
        ∃ start, Buffer.withCapacity most (f.fresh heap) = .ok () start ∧
          ∀ pre name v post, pairs = pre ++ (name, v) :: post →
            ∃ s', Buffer.appendAll pre start = .ok () s' ∧
              Store.reserve (Store.used s' + entrySize name v) s' = .ok false s') := by
  intro pairs most build
  have hfresh := f.isFresh heap
  have hof := Builder.of_eq requests
  have hpairs : pairs = (Builder.of requests).pairs := by rw [hof]
  have hmost : most = (Builder.of requests).demand := by rw [hof]; rfl
  rw [hmost, hpairs]
  refine ⟨Builder.build_full hfresh.capacity, fun hroom => ?_⟩
  obtain ⟨start, c, hmade⟩ := Builder.exists_made hfresh hroom
  refine ⟨⟨fun ⟨s, hs⟩ => hmade.accepted hs, fun hacc => ?_⟩, hmade.refused, fun s hs => ?_⟩
  · obtain ⟨s, hs, -⟩ := hmade.exists_built hacc
    exact ⟨s, hs⟩
  · have hacc := hmade.accepted hs
    obtain ⟨hcap, hcontent⟩ := hmade.built hs
    refine ⟨?oneByOne, hcontent, ?lists, ?used, fun h => hcap.trans (hmade.zero h),
      fun h => hcap.symm ▸ hmade.grown h, start, hmade.run, ?inPlace⟩
    case oneByOne =>
      obtain ⟨s', hrun, hcontent'⟩ :=
        Builder.appendAll_fresh hfresh.content hfresh.capacity hroom hacc
      exact ⟨s', hrun, hcontent'.trans hcontent.symm⟩
    case lists =>
      intro hwell
      rw [hcontent, lists_iff_packed]
      exact packed_encoded fun pair hp => ⟨hwell pair hp, accepted_iff.1 (hacc pair hp)⟩
    case used => rw [← Store.size_content, hcontent, Content.size_encoded]
    case inPlace =>
      intro pre name v post hsplit
      exact hmade.next hsplit fun p hp => hacc p (hsplit ▸ List.mem_append_left _ hp)

/-- More room asked for than is needed, a section of two values and one of none, shared storage. -/
theorem build_collected_sections :
    let requests : List Builder.Request := [.named "a" (.bool true), .withCapacity 100,
      .addSection "s" [.unknown, .integer .int32 7], .addSection "t" [], .value (.utf8 "x")]
    let pairs : List Pair := [(some "a", .bool true), (some "s", .unknown),
      (none, .integer .int32 7), (none, .utf8 "x")]
    let fresh : Flavor.shared.Storage := Shared.empty .empty
    ∃ s, (Builder.of requests).build fresh = .ok () s ∧ Lists (Store.content s) pairs ∧
      Store.used s = 48 ∧ Store.capacity s = 192 ∧
      ∃ start, Buffer.withCapacity 100 fresh = .ok () start ∧
        ∃ s', Buffer.appendAll [(some "a", .bool true)] start = .ok () s' ∧
          Store.reserve (Store.used s' + 12) s' = .ok false s' := by
  intro requests pairs fresh
  have haccepted : ∀ pair ∈ pairs, Accepted pair := by
    simp only [accepted_iff, pairs, List.forall_mem_cons]
    exact ⟨rfl, rfl, rfl, rfl, List.forall_mem_nil _⟩
  have hwell : ∀ pair ∈ pairs, pair.2.WellFormed := by
    simp only [pairs, List.forall_mem_cons]
    exact ⟨trivial, trivial, trivial, trivial, List.forall_mem_nil _⟩
  obtain ⟨hiff, -, hbuilt⟩ := (build_collected requests .shared .empty).2 (.inr (by decide))
  obtain ⟨s, hs⟩ := hiff.2 haccepted
  obtain ⟨-, -, hlists, hused, -, hcap, start, hstart, hkept⟩ := hbuilt s hs
  obtain ⟨s', hfirst, hnext⟩ := hkept [(some "a", .bool true)] (some "s") .unknown _ rfl
  have hgrown : growCapacity 100 = .ok 192 := rfl
  exact ⟨s, hs, hlists hwell, hused, Except.ok.inj ((hcap (by decide)).symm.trans hgrown),
    start, hstart, s', hfirst, hnext⟩

end TaggedBuffer
