import TaggedBuffer.Proofs.World.Frame

namespace TaggedBuffer

/-- The buffer of that name goes on to be what it is, gives up no room and is not cloned. -/
def Step.Spares (s : Step) (name : String) : Prop :=
  match s with
  | call target c => target = name → ¬ c.GivesUpRoom
  | merge _ _ => True
  | clone source new => source ≠ name ∧ new ≠ name
  | _ => s.target ≠ name

namespace World

def callOn? (w : World) (name : String) : Step → Option Call
  | .call target c => if target = name then some c else none
  | .merge target other =>
    if target = name then (w.seen? other).map fun seen => .merge seen.content else none
  | _ => none

/-- The room that a step makes in the buffer of that name, also in the middle of its call. -/
def stepDemand (w : World) (name : String) (s : Step) : Demand :=
  match w.callOn? name s, w.stored? name with
  | some c, some ⟨_, t⟩ => (Update.final (c.run (Metered.start t))).demand
  | _, _ => .none

def demand (name : String) : List Step → World → Demand
  | [], _ => .none
  | s :: rest, w => (w.stepDemand name s).also (demand name rest (w.step s).2)

variable {w w' : World} {name : String} {s : Step} {f : Flavor} {t : f.Storage} {n c : Nat} {l : Place}

theorem callOn?_of_ne (h : name ≠ s.target) : w.callOn? name s = none := by
  cases s with
  | call target _ => exact if_neg (Ne.symm h)
  | merge target _ => exact if_neg (Ne.symm h)
  | _ => rfl

theorem spared_cases (hs : s.Spares s.target) (w : World) :
    w.callOn? s.target s = none ∧ (w.step s).2 = w ∨
      ∃ call : Call, ¬ call.GivesUpRoom ∧ w.callOn? s.target s = some call ∧
        (w.step s).2 = (w.update s.target call.run).2 := by
  cases s with
  | call target call => exact .inr ⟨call, hs rfl, if_pos rfl, rfl⟩
  | merge target other =>
    simp only [Step.target, callOn?, step, if_pos]
    cases w.seen? other with
    | none => exact .inl ⟨rfl, rfl⟩
    | some seen => exact .inr ⟨_, id, rfl, rfl⟩
  | clone source new => exact (hs.2 rfl).elim
  | create => exact (hs rfl).elim
  | lend => exact (hs rfl).elim
  | transfer => exact (hs rfl).elim
  | drop => exact (hs rfl).elim

theorem step_settled (hv : w.pool.Valid) (h : w.stored? name = some ⟨f, t⟩) (ht : Stays c l t)
    (hn : n ≤ c) (hs : s.Spares name) (hmost : (w.stepDemand name s).most ≤ n) :
    (w.stepDemand name s).moved = false ∧
      ∃ t', (w.step s).2.stored? name = some ⟨f, t'⟩ ∧ Stays c l t' := by
  by_cases hname : name = s.target
  · subst hname
    rcases spared_cases hs w with ⟨hnone, hstep⟩ | ⟨call, hroom, hcall, hstep⟩
    · rw [stepDemand, hnone, hstep]
      exact ⟨rfl, t, h, ht⟩
    · rw [stepDemand, hcall, h] at hmost ⊢
      obtain ⟨hplain, hsettled⟩ :=
        (call.run_settled hn hroom t (Metered.start t) ⟨rfl, Settled.start ht⟩).final
      refine ⟨hsettled.moved hmost, Update.final (call.run t), ?_, ?_⟩
      · rw [hstep]
        exact stored?_update h call.run
      · rw [← hplain]
        exact hsettled.stays hmost
  · rw [stepDemand, callOn?_of_ne hname]
    have hclones : ¬ s.Clones name := by
      intro hclones
      cases s with
      | clone source new => exact hs.1 hclones
      | _ => exact hclones
    exact ⟨rfl, stays_step_ne hv h ht hname hclones⟩

theorem run_settled {steps : List Step} (hw : Mirrors (fun _ => True) w w')
    (h : w.stored? name = some ⟨f, t⟩) (ht : Stays c l t) (hn : n ≤ c)
    (hs : ∀ s ∈ steps, s.Spares name) (hmost : (w.demand name steps).most ≤ n) :
    (w.demand name steps).moved = false ∧
      ∃ t', (w.run steps).2.stored? name = some ⟨f, t'⟩ ∧ Stays c l t' := by
  induction steps generalizing w w' t with
  | nil => exact ⟨rfl, t, h, ht⟩
  | cons s rest ih =>
    have hmost : max (w.stepDemand name s).most ((w.step s).2.demand name rest).most ≤ n := hmost
    obtain ⟨hmoved, t₁, h₁, ht₁⟩ :=
      step_settled hw.valid h ht hn (hs s (.head _)) (by omega)
    obtain ⟨hrest, ht'⟩ := ih (hw.step closed_true s.allowed_true).2 h₁ ht₁
      (fun s hmem => hs s (.tail _ hmem)) (by omega)
    refine ⟨?_, ht'⟩
    rw [demand, Demand.also, hmoved, hrest]
    rfl

theorem alone_iff (hv : w.pool.Valid) (h : w.stored? name = some ⟨f, t⟩) : Placed.Alone t ↔
    ∀ other id, other ≠ name → w.pool.handle? other = some (some id) →
      Placed.place t ≠ .block (some id) := by
  rw [stored?] at h
  split at h
  · cases h
    exact iff_of_true trivial fun _ _ _ _ hp => Place.noConfusion hp
  next b _ =>
    cases h
    refine iff_of_true trivial fun _ _ _ _ hp => ?_
    change (if b.isBorrowed then Place.lent else .own) = _ at hp
    split at hp <;> cases hp
  · obtain ⟨t', hview, heq⟩ := Option.map_eq_some_iff.1 h
    cases heq
    change t'.holders ≤ 1 ↔ _
    rw [hv.alone_iff hview]
    refine ⟨fun h other id hne ho hp => ?_, fun h id hid => ?_⟩
    · exact hv.others_eq_zero_iff.1 (h id (Place.block.inj hp)) other hne ho
    · exact hv.others_eq_zero_iff.2 fun other hne ho => h other id hne ho (congrArg Place.block hid)

end World

/-- What making room for `n` bytes gives a buffer, and which later steps of a world make no new
region for it as long as they make room for `n` bytes at most. -/
theorem reserve_contract (steps : List Step) (name : String) (n : Nat) :
    let padded := (n + n / 2 + 63) / 64 * 64
    (∀ (f : Flavor) (s : f.Storage),
      (∀ moved s', Store.reserve n s = .ok moved s' →
        (Store.used s' = Store.used s ∧ Store.content s' = Store.content s ∧
          n ≤ Store.capacity s') ∧
        (moved = true ↔ Store.capacity s < n ∨ ¬ Placed.Alone s) ∧
        Store.capacity s' = if Store.capacity s < n then padded else Store.capacity s) ∧
      ((∃ e s', Store.reserve n s = .error e s') ↔
        Store.capacity s < n ∧ (2 ^ 64 ≤ padded ∨ 2 ^ 63 - 1 < padded)) ∧
      ∀ e s', Store.reserve n s = .error e s' →
        s' = s ∧ e = if padded < 2 ^ 64 then .regionLimit padded else .addressSpace n) ∧
    (∀ (f : Flavor) (s : f.Storage) (c : Call),
      Update.answer (c.run s) = Update.answer (c.run (Metered.start s)) ∧
        (Update.final (c.run (Metered.start s))).store = Update.final (c.run s)) ∧
    let w := (World.empty.run steps).2
    ∀ (f : Flavor) (s : f.Storage), w.stored? name = some ⟨f, s⟩ →
      (Placed.Alone s ↔ ∀ other id, other ≠ name → w.pool.handle? other = some (some id) →
        Placed.place s ≠ .block (some id)) ∧
      ∀ moved s', Store.reserve n s = .ok moved s' →
        let w' := (w.step (.call name (.edit (.reserve n)))).2
        w'.stored? name = some ⟨f, s'⟩ ∧
        ∀ later, (∀ step ∈ later, step.Spares name) → (w'.demand name later).most ≤ n →
          (w'.demand name later).moved = false ∧
          ∃ t, (w'.run later).2.stored? name = some ⟨f, t⟩ ∧
            Store.capacity t = Store.capacity s' ∧ Placed.place t = Placed.place s' := by
  intro padded
  refine ⟨fun f s => ⟨fun moved s' h => ?_, ?_, fun e s' h => Store.of_reserve_error h⟩,
    fun f s c => ?_, ?_⟩
  · obtain ⟨hcontent, hused, hroom⟩ := Store.of_reserve_ok h
    exact ⟨⟨hused, hcontent, hroom⟩, Store.moved_iff h, Store.capacity_reserve h⟩
  · rw [Store.reserve_error_iff]
    omega
  · have hplain := c.run_noted s (Metered.start s) ⟨rfl, trivial⟩
    exact ⟨hplain.answer_eq, hplain.final.1⟩
  · intro w f s hs
    obtain ⟨-, hw⟩ := Mirrors.empty.run closed_true fun s (_ : s ∈ steps) => s.allowed_true
    refine ⟨World.alone_iff hw.valid hs, fun moved s' h => ?_⟩
    have hfinal : Update.final ((Call.edit (.reserve n)).run s) = s' := by
      rw [Call.run, Edit.run, Update.map_of_ok h]
      rfl
    have hreserve := World.stored?_update hs (Call.edit (.reserve n)).run
    change (w.step (.call name (.edit (.reserve n)))).2.stored? name = _ at hreserve
    rw [hfinal] at hreserve
    refine ⟨hreserve, fun later hspares hmost => ?_⟩
    have hstays : Stays (Store.capacity s') (Placed.place s') s' :=
      ⟨(Placed.reserve_ok h).1, rfl, rfl⟩
    obtain ⟨hmoved, t, ht, -, hcap, hplace⟩ :=
      World.run_settled (hw.step closed_true (Step.allowed_true _)).2 hreserve hstays
        (Store.of_reserve_ok h).2.2 hspares hmost
    exact ⟨hmoved, t, ht, hcap, hplace⟩

/-- The block of 64 bytes has room for 16 bytes, and another handle. So the first handle is moved, and
with that it is on a block of its own, where it stays. -/
example :
    let w := (World.empty.run [.create "a" .shared (.withCapacity 8), .clone "a" "b"]).2
    let w' := (w.step (.call "a" (.edit (.reserve 16)))).2
    let later : List Step := [.call "a" (.edit (.append none .unknown)), .clone "b" "c",
      .call "a" (.setSection "x" [.unknown])]
    w.pool.handle? "a" = some (some 0) ∧ w'.pool.handle? "a" = some (some 1) ∧
      w'.demand "a" later = ⟨16, false⟩ ∧ (w'.run later).2.pool.handle? "a" = some (some 1) := by
  decide +kernel

end TaggedBuffer
