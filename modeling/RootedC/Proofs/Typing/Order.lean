import RootedC.Proofs.Typing.Renumbering

/-!
The order of top-level items. Types of top-level names are looked up by name, and the scopes of an
item have numbers of their own, so items in another order are checked alike: the same ones are
accepted, with the same types, and only the numbers of scopes differ.
-/
namespace RootedC.Lexical

section Globals
variable {G : Bindings Ty}

/-- An outside with other top-level types. -/
def Outside.withGlobals (w : Outside) (G : Bindings Ty) : Outside := { w with globals := G }

mutual

theorem check_withGlobals : ∀ (e : Expr) {w : Outside}, (∀ x, G.get? x = w.globals.get? x) →
    check (w.withGlobals G) e = check w e
  | .number _ _, w, _ | .text _ _, w, _ | .boolean _ _, w, _ | .unit _, w, _
  | .procedure _, w, _ => by
    rw [check, check]
  | .name x span, w, h => by
    rw [check, check]
    funext a
    simp only [Pass.checkName, Outside.withGlobals, h]
  | .unary operator operand span, w, h => by
    rw [check, check, check_withGlobals operand h]
  | .binary left operator right span, w, h => by
    rw [check, check, check_withGlobals left h, check_withGlobals right h]
  | .call callee arguments span, w, h => by
    have ha : ∀ tys, checkArguments (w.withGlobals G) arguments tys =
        checkArguments w arguments tys :=
      fun tys => checkArguments_withGlobals arguments tys h
    cases callee with
    | procedure literal =>
      have hl : ∀ fs n, checkProcedure ((w.withGlobals G).enter fs) n literal =
          checkProcedure (w.enter fs) n literal :=
        fun fs _ => checkProcedure_withGlobals literal (w := w.enter fs) h
      rw [check, check]
      simp only [hl, ha]
    | name x _ =>
      have hx : Pass.checkCalleeName (w.withGlobals G) x = Pass.checkCalleeName w x := by
        funext a
        simp only [Pass.checkCalleeName, Outside.withGlobals, h]
      rw [check, check]
      simp only [hx, ha]
    | _ => simp only [check, ha]
  | .branch condition thenArm elseArm? span, w, h => by
    cases elseArm? with
    | none => rw [check, check, check_withGlobals condition h, check_withGlobals thenArm h]
    | some elseArm =>
      rw [check, check, check_withGlobals condition h, check_withGlobals thenArm h]
      simp only [check_withGlobals elseArm h]
  | .letIn declarations body span, w, h => by
    rw [check, check, check_withGlobals body h]
    simp only [checkDeclarations_withGlobals declarations h]
  | .block body span, w, h => by
    rw [check, check, checkAll_withGlobals body h]

theorem checkAll_withGlobals : ∀ (es : List Expr) {w : Outside},
    (∀ x, G.get? x = w.globals.get? x) → checkAll (w.withGlobals G) es = checkAll w es
  | [], w, _ => by rw [checkAll, checkAll]
  | e :: more, w, h => by
    rw [checkAll, checkAll, check_withGlobals e h, checkAll_withGlobals more h]

theorem checkArguments_withGlobals : ∀ (es : List Expr) (tys : List Ty) {w : Outside},
    (∀ x, G.get? x = w.globals.get? x) →
      checkArguments (w.withGlobals G) es tys = checkArguments w es tys
  | [], _, w, _ => by simp only [checkArguments]
  | _ :: _, [], w, _ => by simp only [checkArguments]
  | e :: more, ty :: tys, w, h => by
    rw [checkArguments, checkArguments, check_withGlobals e h,
      checkArguments_withGlobals more tys h]

theorem checkDeclarations_withGlobals : ∀ (ds : List (Declaration Expr)) {w : Outside}
    {scope : Nat}, (∀ x, G.get? x = w.globals.get? x) →
      checkDeclarations (w.withGlobals G) scope ds = checkDeclarations w scope ds
  | [], w, scope, _ => by rw [checkDeclarations, checkDeclarations]
  | ⟨x, type?, value, _⟩ :: more, w, scope, h => by
    rw [checkDeclarations, checkDeclarations, check_withGlobals value h,
      checkDeclarations_withGlobals more h]

theorem checkProcedure_withGlobals : ∀ (literal : Procedure Expr) {w : Outside} {n : Nat},
    (∀ x, G.get? x = w.globals.get? x) →
      checkProcedure (w.withGlobals G) n literal = checkProcedure w n literal
  | ⟨parameters, result?, body, span⟩, w, n, h => by
    rw [checkProcedure, checkProcedure, check_withGlobals body h]

end

theorem checkItem_withGlobals {w : Outside} (h : ∀ x, G.get? x = w.globals.get? x) (n : Nat)
    (item : Item) : checkItem (w.withGlobals G) n item = checkItem w n item := by
  cases item with
  | procedure name literal span =>
    simp only [checkItem, checkProcedure_withGlobals literal h]
  | constant name type? value span => rfl
  | mutable name type? value span => rfl
  | entry body span => simp only [checkItem, check_withGlobals body h]

theorem checkItems_withGlobals {w : Outside} (h : ∀ x, G.get? x = w.globals.get? x) (n : Nat)
    (items : List Item) : checkItems (w.withGlobals G) n items = checkItems w n items := by
  induction items generalizing n with
  | nil => rfl
  | cons item more ih => simp only [checkItems, checkItem_withGlobals h, ih]

end Globals

/-- Items in another order declare the same names with the same types. -/
theorem declareAll_perm {items items' : List Item} (hp : items.Perm items') {G : Bindings Ty}
    (h : declareAll [] items = some G) :
    ∃ G', declareAll [] items' = some G' ∧ ∀ x, G'.get? x = G.get? x := by
  have hd := declareAll_declared h
  have hnames := hp.filterMap Item.name?
  obtain ⟨G', hG'⟩ := exists_declareAll (hnames.nodup_iff.mp hd.distinct)
    (fun x hx => hd.fresh x (hnames.mem_iff.mpr hx))
    (fun item hi => hd.typed item (hp.mem_iff.mpr hi))
  have hd' := declareAll_declared hG'
  refine ⟨G', hG', fun x => Option.ext fun ty => ?_⟩
  rw [hd'.get, hd.get]
  simp only [hp.mem_iff]

theorem checkItems_cons_eq_some {w : Outside} {n n' : Nat} {item : Item} {more : List Item}
    {ts : List Typed.Item} : checkItems w n (item :: more) = some (ts, n') ↔
      ∃ t m rest, checkItem w n item = some (t, m) ∧ checkItems w m more = some (rest, n') ∧
        ts = t :: rest := by
  simp only [checkItems, Option.bind_eq_some_iff, Option.map_eq_some_iff]
  constructor
  · rintro ⟨⟨t, m⟩, ht, ⟨rest, k⟩, hrest, h⟩
    cases h
    exact ⟨t, m, rest, ht, hrest, rfl⟩
  · rintro ⟨t, m, rest, ht, hrest, rfl⟩
    exact ⟨(t, m), ht, (rest, n'), hrest, rfl⟩

theorem relabel_constantValue {e : Expr} {x : Typed.Expr} (h : constantValue? e = some x)
    (ρ : Nat → Nat) : x.relabel (.renumber ρ) = x := by
  have hfits := fits_of_constantValue h [] [] ⟨0, 0⟩
  have hr : (x.relabel (.renumber id)).relabel (.renumber ρ) = x.relabel (.renumber id) :=
    hfits.renumber (by rintro s (hs | hs) <;> simp at hs)
  simpa only [Typed.Expr.relabel_id] using hr

theorem checkItem_shift {w : Outside} {n d : Nat} (item : Item) :
    checkItem w (n + d) item =
      (checkItem w n item).map fun r => (r.1.relabel (.shift d), r.2 + d) := by
  cases item with
  | procedure name literal span =>
    simp only [checkItem, checkProcedure_shift, Option.map_map]
    rfl
  | constant name type? value span =>
    rw [checkItem, checkItem]
    cases hx : constantValue? value with
    | none => rfl
    | some x =>
      cases type?.bind fun t => t.toTy.toOption with
      | none => rfl
      | some ty =>
        simp only [Option.bind_some]
        split
        · simp only [Option.map_some, Typed.Item.relabel, Typed.Relabel.shift,
            relabel_constantValue hx]
        · rfl
  | mutable name type? value span => rfl
  | entry body span =>
    have hbody := @check_body_shift w body [] n d
    rw [Frame.ofParameters, Frame.ofParameters, List.foldl_nil] at hbody
    simp only [checkItem, hbody, Option.map_map]
    congr 1
    funext r
    simp only [Function.comp_apply, Typed.Expr.ty_relabel]
    rfl

/-- Two blocks of numbers change places. -/
def swapBlocks (n m k : Nat) (s : Nat) : Nat :=
  if n ≤ s ∧ s < m then s + (k - m) else if m ≤ s ∧ s < k then s - (m - n) else s

theorem swapBlocks_injective {n m k : Nat} (hnm : n ≤ m) (hmk : m ≤ k) :
    Function.Injective (swapBlocks n m k) := by
  intro s t h
  unfold swapBlocks at h
  split at h <;> split at h <;> (try split at h) <;> (try split at h) <;> omega

theorem swapBlocks_of_outside {n m k s : Nat} (hnm : n ≤ m) (hmk : m ≤ k) (hs : s < n ∨ k ≤ s) :
    swapBlocks n m k s = s := by
  unfold swapBlocks
  split_ifs <;> omega

/-- Two items one after the other can change places, with their blocks of scopes. -/
theorem checkItem_swap {w : Outside} (hg : ∀ x t, w.globals.get? x = some t → t.settled = true)
    {a b : Item} {ta tb : Typed.Item} {n m k : Nat} (ha : checkItem w n a = some (ta, m))
    (hb : checkItem w m b = some (tb, k)) :
    ∃ m', checkItem w n b = some (tb.relabel (.renumber (swapBlocks n m k)), m') ∧
      checkItem w m' a = some (ta.relabel (.renumber (swapBlocks n m k)), k) := by
  have hafits := checkItem_fits ha hg
  have hle := hafits.within.le
  have hle' := (checkItem_fits hb hg).within.le
  -- What `b` gives from `n + d` on is the shift of what it gives from `n` on.
  obtain ⟨d, rfl⟩ := Nat.exists_eq_add_of_le hle
  rw [checkItem_shift] at hb
  obtain ⟨⟨tb', m'⟩, hb', hshift⟩ := Option.map_eq_some_iff.mp hb
  cases hshift
  have hbfits := checkItem_fits hb' hg
  obtain ⟨e, rfl⟩ := Nat.exists_eq_add_of_le hbfits.within.le
  refine ⟨n + e, ?_, ?_⟩
  · have hback : (tb'.relabel (.shift d)).relabel (.renumber (swapBlocks n (n + d) (n + e + d))) =
        tb'.relabel (.renumber id) := by
      refine hbfits.renumber fun s hs => ?_
      rcases hs with hs | hs
      · cases hs
      · simp only [swapBlocks, id]
        split_ifs <;> omega
    rw [hback, Typed.Item.relabel_id, hb']
  · have hmove : ta.relabel (.renumber (swapBlocks n (n + d) (n + e + d))) =
        ta.relabel (.shift e) := by
      refine hafits.renumber_congr fun s hs hs' => ?_
      simp only [swapBlocks]
      split_ifs <;> omega
    rw [checkItem_shift, ha, hmove, Option.map_some, Nat.add_right_comm n e d]

/-- Items in another order are checked alike, up to a renumbering of the scopes that the check has
handed out. -/
theorem checkItems_perm {w : Outside} (hg : ∀ x t, w.globals.get? x = some t → t.settled = true)
    {items items' : List Item} (hp : items.Perm items') {n n' : Nat} {ts : List Typed.Item}
    (h : checkItems w n items = some (ts, n')) :
    ∃ ts' ρ, checkItems w n items' = some (ts', n') ∧ Function.Injective ρ ∧
      (∀ s, s < n ∨ n' ≤ s → ρ s = s) ∧ (ts.map (Typed.Item.relabel (.renumber ρ))).Perm ts' := by
  induction hp generalizing n n' ts with
  | nil =>
    cases h
    exact ⟨[], id, rfl, Function.injective_id, fun _ _ => rfl, .nil⟩
  | @cons item items items' hp ih =>
    obtain ⟨t, m, rest, ht, hrest, rfl⟩ := checkItems_cons_eq_some.mp h
    obtain ⟨ts', ρ, hts', hρ, hfix, hperm⟩ := ih hrest
    have hitem := checkItem_fits ht hg
    have hle := hitem.within.le
    have hle' := (checkItems_fits hrest hg).within.le
    refine ⟨t :: ts', ρ, ?_, hρ, fun s hs => hfix s (by omega), ?_⟩
    · exact checkItems_cons_eq_some.mpr ⟨t, m, ts', ht, hts', rfl⟩
    · have hsame : t.relabel (.renumber ρ) = t.relabel (.renumber id) :=
        hitem.renumber_congr fun s _ hs => hfix s (.inl hs)
      rw [List.map_cons, hsame, Typed.Item.relabel_id]
      exact hperm.cons t
  | swap a b more =>
    obtain ⟨tb, m, _, hb, hmore, rfl⟩ := checkItems_cons_eq_some.mp h
    obtain ⟨ta, k, rest, ha, hrest, rfl⟩ := checkItems_cons_eq_some.mp hmore
    obtain ⟨m', ha', hb'⟩ := checkItem_swap hg hb ha
    have hle := (checkItem_fits hb hg).within.le
    have hle' := (checkItem_fits ha hg).within.le
    have hfits := checkItems_fits hrest hg
    have hle'' := hfits.within.le
    refine ⟨_, swapBlocks n m k, checkItems_cons_eq_some.mpr ⟨_, m', _, ha',
      checkItems_cons_eq_some.mpr ⟨_, k, rest, hb', hrest, rfl⟩, rfl⟩,
      swapBlocks_injective hle hle', ?_, ?_⟩
    · intro s hs
      exact swapBlocks_of_outside hle hle' (by omega)
    · have hlater : rest.map (Typed.Item.relabel (.renumber (swapBlocks n m k))) = rest := by
        refine hfits.renumber_fixed fun s hs _ => ?_
        exact swapBlocks_of_outside hle hle' (.inr hs)
      rw [List.map_cons, List.map_cons, hlater]
      exact .swap ..
  | @trans items₁ items₂ items₃ hp₁ hp₂ ih₁ ih₂ =>
    obtain ⟨ts₂, ρ₁, hts₂, hρ₁, hfix₁, hperm₁⟩ := ih₁ h
    obtain ⟨ts₃, ρ₂, hts₃, hρ₂, hfix₂, hperm₂⟩ := ih₂ hts₂
    refine ⟨ts₃, ρ₂ ∘ ρ₁, hts₃, hρ₂.comp hρ₁, fun s hs => ?_, ?_⟩
    · rw [Function.comp_apply, hfix₁ s hs, hfix₂ s hs]
    · have hcomp : (ts.map (Typed.Item.relabel (.renumber ρ₁))).map
          (Typed.Item.relabel (.renumber ρ₂)) =
            ts.map (Typed.Item.relabel (.renumber (ρ₂ ∘ ρ₁))) :=
        (checkItems_fits h hg).renumber fun _ _ => rfl
      rw [← hcomp]
      exact (hperm₁.map _).trans hperm₂

end RootedC.Lexical
