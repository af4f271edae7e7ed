import PhyEngine.Verilog.ArithSound
import PhyEngine.Verilog.Elaborate

/-!
# Port connections

`parse_connection_ref`, the ports of `parse_module`, and `fill_bindings`, whose loop comes out as
one block of bindings and one of drives for each port. What it gets wrong is the sign of a
connection of one bit: for a bare signal the declaration decides, not the expression.
-/

namespace PhyEngine.Verilog

open List

def literalAt (nodes : List ExprNode) (root : Nat) : Option LogicT :=
  match nodes[root]? with
  | some (.literal v) => some v
  | _ => none

def signalAt (nodes : List ExprNode) (root : Nat) : Option Nat :=
  match nodes[root]? with
  | some (.signal s) => some s
  | _ => none

/-- `parse_connection_ref`, after the expression has been parsed. The arena only grows, so
the nodes may be those of the finished module. -/
def parseConnectionRef (nodes : List ExprNode) (v : ExprValue) : ConnectionRef :=
  match v.roots with
  | [] => .unconnected
  | [root] =>
    match nodes[root]? with
    | some (.signal s) => .scalar (some s)
    | some (.literal b) => .literal v.isSigned b
    | _ => .expr v.isSigned [root]
  | roots =>
    if roots.all fun r => (literalAt nodes r).isSome then
      .literalVector v.isSigned (roots.map fun r => (literalAt nodes r).getD .X)
    else if roots.all fun r => (literalAt nodes r).isSome || (signalAt nodes r).isSome then
      .bitList v.isSigned (roots.map fun r =>
        ((signalAt nodes r).map Sum.inl).getD (.inr ((literalAt nodes r).getD .X)))
    else .expr v.isSigned roots

/-- The reference of a connection, which may be left empty. -/
def connectionRef (nodes : List ExprNode) (e : Option ExprValue) : ConnectionRef :=
  (e.map (parseConnectionRef nodes)).getD .unconnected

namespace CompiledModule

def portDecl (m : CompiledModule) (base : String) : PortDecl := (m.portDecls.lookup base).getD {}

def portBits (m : CompiledModule) (base : String) : List Nat :=
  if (m.portDecl base).hasRange then ((m.vectors.lookup base).map (·.bits)).getD []
  else (m.signalIndex.lookup base).toList

end CompiledModule

/-- What the end of `parse_module` leaves: the ports are the bits of the base ports, each
with the direction of its declaration, and a vector has the declared range. -/
structure PortsExpanded (m : CompiledModule) : Prop where
  ports : (m.ports.map fun q => (q.dir, q.signal)) =
    m.portOrder.flatMap fun base => (m.portBits base).map fun s => ((m.portDecl base).dir, s)
  width : ∀ base ∈ m.portOrder, (m.portBits base).length = (m.portDecl base).width
  indices : ∀ q ∈ m.ports, q.signal < sizeMax

/-- The connection of a port in a list whose items are all named or all positional. A name
that comes twice counts where it comes last. -/
def connectionFor (conns : List (String × Option ExprValue)) (base : String) (position : Nat) : Option ExprValue :=
  if conns.all fun c => c.1 = "" then conns[position]?.bind Prod.snd
  else (conns.reverse.lookup base).join

section Spec

variable (pm cm : CompiledModule) (conns : List (String × Option ExprValue))

/-- The value of a connection in the width of a port: truncated on the left, or extended by
the sign bit of a signed expression and by zeros else; unknown without a connection. -/
def connectionValue (values : List LogicT) (w : Nat) : Option ExprValue → List LogicT
  | none => List.replicate w .X
  | some v => if v.roots = [] then List.replicate w .X else resizeVals v.isSigned w (valuesOf pm.exprNodes values v)

def portInput (values : List LogicT) (port : String × Nat) : List LogicT :=
  if (cm.portDecl port.1).dir = .output then List.replicate (cm.portDecl port.1).width .X
  else connectionValue pm values (cm.portDecl port.1).width (connectionFor conns port.1 port.2)

/-- The signals that a connection of names and literals has, bit by bit. -/
def connectionSignals (nodes : List ExprNode) : Option ExprValue → List (Option Nat)
  | none => []
  | some v =>
    if v.roots.all fun r => (literalAt nodes r).isSome ||
      (signalAt nodes r).isSome then v.roots.map (signalAt nodes) else []

/-- The drives of an output port: every signal of its connection with the bit of the port in
its place, the port being truncated or extended by its own sign. -/
def portOutput (child : InstanceNode) (port : String × Nat) : List (Nat × Option LogicT) :=
  if (cm.portDecl port.1).dir = .output ∨ (cm.portDecl port.1).dir = .inout then
    let dst := connectionSignals pm.exprNodes (connectionFor conns port.1 port.2)
    (dst.zip (resizeVals (cm.portDecl port.1).isSigned dst.length ((cm.portBits port.1).map child.get))).filterMap
      fun sv => sv.1.map fun s => (s, some sv.2)
  else []

/-- The bindings and drives do what the connections are to do: in every state of the parent
the bits of the input ports get the values of their connections, in every state of the child
the output ports drive the signals of theirs, and nothing else is connected. -/
structure BindsAsAssigned (r : List PortBinding × List PortDrive) : Prop where
  length : r.1.length = cm.ports.length
  inputs : ∀ parent : InstanceNode, parent.mod = pm →
    ((cm.ports.zip r.1).map fun qb => (qb.1.signal, bindingValue parent qb.2)) =
      cm.portOrder.zipIdx.flatMap fun port => (cm.portBits port.1).zip (portInput pm cm conns parent.state.values port)
  outputs : ∀ qb ∈ cm.ports.zip r.1, qb.1.dir = .output → qb.2 = .unconnected
  drives : ∀ child : InstanceNode, child.mod = cm → (∀ q ∈ cm.ports, q.signal < child.state.values.length) →
    (r.2.map fun d => (d.parentSignal, d.source child)) = cm.portOrder.zipIdx.flatMap (portOutput pm cm conns child)

end Spec

variable {β : Type}

theorem length_resizeBits (absent zero : β) (src : List β) (w : Nat) (sgn : Bool) :
    (resizeBits absent zero src w sgn).length = w := by
  unfold resizeBits
  split
  · exact length_replicate
  · rename_i msb rest
    by_cases h : w ≤ (msb :: rest).length
    · rw [if_pos h, length_drop]
      omega
    · rw [if_neg h, length_append, length_replicate]
      omega

theorem map_resizeBits {f : β → LogicT} {absent zero : β} (hzero : f zero = .L) {src : List β} (hsrc : src ≠ [])
    (w : Nat) (sgn : Bool) : (resizeBits absent zero src w sgn).map f = resizeVals sgn w (src.map f) := by
  obtain ⟨msb, rest, rfl⟩ := exists_cons_of_ne_nil hsrc
  rw [resizeBits, resizeVals, length_map]
  by_cases hlt : w < (msb :: rest).length
  · rw [if_pos (by omega), if_pos hlt, map_drop]
  · rw [if_neg hlt]
    by_cases heq : w ≤ (msb :: rest).length
    · have hzero : w - (msb :: rest).length = 0 := by omega
      have hdrop : (msb :: rest).length - w = 0 := by omega
      rw [if_pos heq, hdrop, hzero]
      rfl
    · rw [if_neg heq, map_append, map_replicate, map_cons, headD_cons]
      congr 2
      cases sgn with
      | false => exact hzero
      | true => rfl

variable {nodes : List ExprNode} {s w : Nat} {values : List LogicT}

section Bits

variable {pm : CompiledModule}

variable {r : Nat}

theorem signalAt_eq_some : signalAt nodes r = some s ↔ nodes[r]? = some (.signal s) := by
  unfold signalAt
  split <;> simp_all

variable {v : LogicT}

theorem literalAt_eq_some :
    literalAt nodes r = some v ↔ nodes[r]? = some (.literal v) := by
  unfold literalAt
  split <;> simp_all

theorem rootVal_signal (h : nodes[r]? = some (.signal s)) :
    rootVal nodes values r = values.getD s .X := by
  rw [rootVal, evalNode_succ h]
  rfl

theorem rootVal_literal (h : nodes[r]? = some (.literal v)) :
    rootVal nodes values r = v := by
  rw [rootVal, evalNode_succ h]
  rfl

theorem map_connectionBits {parent : InstanceNode} (hmod : parent.mod = pm) (v : ExprValue) :
    ((connectionBits pm (parseConnectionRef pm.exprNodes v)).1.map (bindingValue parent)) =
      valuesOf pm.exprNodes parent.state.values v := by
  have hexpr (roots : List Nat) : (roots.map PortBinding.parentExprRoot).map (bindingValue parent) =
      roots.map (rootVal pm.exprNodes parent.state.values) := by
    rw [List.map_map]
    refine map_congr_left fun r _ => ?_
    rw [Function.comp_apply, bindingValue, hmod]
    rfl
  rw [valuesOf, parseConnectionRef]
  split
  · rename_i hroots
    rw [hroots]
    rfl
  · rename_i root hroots
    rw [hroots]
    split
    · rename_i s hs
      exact congrArg (fun x => [x]) (rootVal_signal hs).symm
    · rename_i b hb
      exact congrArg (fun x => [x]) (rootVal_literal hb).symm
    · exact hexpr [root]
  · split_ifs with hlit hsimple
    · rw [connectionBits, List.map_map, List.map_map]
      refine map_congr_left fun r hr => ?_
      obtain ⟨b, hb⟩ := Option.isSome_iff_exists.mp (all_eq_true.mp hlit r hr)
      rw [rootVal_literal (literalAt_eq_some.mp hb)]
      simp [hb, bindingValue]
    · rw [connectionBits, List.map_map, List.map_map]
      refine map_congr_left fun r hr => ?_
      have hr := all_eq_true.mp hsimple r hr
      cases hs : signalAt pm.exprNodes r with
      | some s =>
        rw [rootVal_signal (signalAt_eq_some.mp hs)]
        simp [hs, bindingValue, InstanceNode.get, ModuleState.get]
      | none =>
        rw [hs, Option.isSome_none, Bool.or_false] at hr
        obtain ⟨b, hb⟩ := Option.isSome_iff_exists.mp hr
        rw [rootVal_literal (literalAt_eq_some.mp hb)]
        simp [hs, hb, bindingValue]
    · exact hexpr v.roots

def bareSignal (nodes : List ExprNode) (v : ExprValue) : Option Nat :=
  match v.roots with
  | [root] => signalAt nodes root
  | _ => none

/-- The sign of the reference is that of the expression, unless the expression is a bare
signal: then it is that of the signal. -/
theorem signed_connectionBits (v : ExprValue) (hv : v.roots ≠ []) :
    (connectionBits pm (parseConnectionRef pm.exprNodes v)).2 =
      ((bareSignal pm.exprNodes v).map fun s => pm.signalIsSigned.getD s false).getD v.isSigned := by
  rw [parseConnectionRef, bareSignal]
  generalize v.roots = roots at hv ⊢
  match roots with
  | [] => exact absurd rfl hv
  | [root] =>
    dsimp only
    unfold signalAt
    cases pm.exprNodes[root]? with
    | none => rfl
    | some n => cases n <;> rfl
  | r :: r' :: rest =>
    dsimp only
    split_ifs <;> rfl

end Bits

theorem foldl_set_zipIdx (offset : Nat) (xs : List β) (k : Nat) (front mid back : List β)
    (hfront : front.length = offset + k) (hmid : mid.length = xs.length) :
    (xs.zipIdx k).foldl (fun bs bi => bs.set (offset + bi.2) bi.1) (front ++ mid ++ back) = front ++ xs ++ back := by
  induction xs generalizing k front mid with
  | nil => rw [length_eq_zero_iff.mp hmid, zipIdx_nil, foldl_nil]
  | cons x xs ih =>
    obtain ⟨y, mid, rfl⟩ := exists_cons_of_length_eq_add_one hmid
    have hset : (front ++ y :: mid ++ back).set (offset + k) x = (front ++ [x]) ++ mid ++ back := by
      rw [← hfront, append_assoc, set_append_right _ _ (Nat.le_refl _), Nat.sub_self]
      simp
    rw [zipIdx_cons, foldl_cons, hset, ih (k + 1) (front ++ [x]) mid (by simp; omega) (by simpa using hmid)]
    simp

theorem flatMap_zipIdx_fst {γ : Type} (f : β → List γ) (xs : List β) (k : Nat) :
    ((xs.zipIdx k).flatMap fun x => f x.1) = xs.flatMap f := by
  rw [← flatMap_map Prod.fst f, zipIdx_map_fst]

section Loop

variable (pm cm : CompiledModule) (idef : InstanceDef)

variable (port : String × Nat)

def inputBlock : List PortBinding :=
  if (cm.portDecl port.1).dir ≠ .output then
    let bits := connectionBits pm (connectionOf idef port.1 port.2)
    resizeBits .unconnected (.literal .L) bits.1 (cm.portDecl port.1).width bits.2
  else List.replicate (cm.portDecl port.1).width .unconnected

def bitDrive : Option Nat × (Nat ⊕ LogicT) → Option PortDrive
  | (none, _) => none
  | (some s, .inl c) => if c = sizeMax then none else some { parentSignal := s, childSignal := c }
  | (some s, .inr v) => some { parentSignal := s, srcIsLiteral := true, literal := v }

def outputBlock : List PortDrive :=
  if (cm.portDecl port.1).dir = .output ∨ (cm.portDecl port.1).dir = .inout then
    let dst := connectionDestBits pm (connectionOf idef port.1 port.2)
    if dst = [] then []
    else (dst.zip (resizeBits (.inr .X) (.inr .L) ((cm.portBits port.1).map Sum.inl) dst.length
      (cm.portDecl port.1).isSigned)).filterMap bitDrive
  else []

variable {pm cm idef}

theorem length_inputBlock : (inputBlock pm cm idef port).length = (cm.portDecl port.1).width := by
  unfold inputBlock
  split_ifs
  · exact length_resizeBits _ _ _ _ _
  · exact length_replicate

theorem port_width_pos (pd : PortDecl) : 0 < pd.width := by
  unfold PortDecl.width
  split <;> omega

theorem portDrives_eq {ref : ConnectionRef} {pd : PortDecl} {offset : Nat} {bits rest : List Nat}
    (hports : (cm.ports.drop offset).map (·.signal) = bits ++ rest) (hbits : bits.length = pd.width) :
    portDrives pm cm ref pd offset =
      if connectionDestBits pm ref = [] then []
      else ((connectionDestBits pm ref).zip (resizeBits (.inr .X) (.inr .L) (bits.map Sum.inl)
        (connectionDestBits pm ref).length pd.isSigned)).filterMap bitDrive := by
  have hlen : ¬ cm.ports.length < offset + pd.width := by
    have hcount := congrArg List.length hports
    rw [length_map, length_drop, length_append, hbits] at hcount
    have hwidth := port_width_pos pd
    omega
  have htake : ((cm.ports.drop offset).take pd.width).map (fun q => (Sum.inl q.signal : Nat ⊕ LogicT)) =
    bits.map Sum.inl := by
    have hmap : ((cm.ports.drop offset).take pd.width).map (·.signal) = bits := by
      rw [map_take, hports, ← hbits, take_left]
    rw [← hmap, List.map_map]
    rfl
  rw [portDrives]
  dsimp only
  rw [htake]
  by_cases hdst : connectionDestBits pm ref = []
  · rw [if_pos (Or.inl hdst), if_pos hdst]
  · rw [if_neg fun h => h.elim hdst hlen, if_neg hdst]
    rfl

theorem fillPorts_eq {ports : List (String × Nat)} {offset : Nat} {front : List PortBinding} {drives : List PortDrive}
    (hfront : front.length = offset)
    (hports : (cm.ports.drop offset).map (·.signal) = ports.flatMap fun port => cm.portBits port.1)
    (hwidth : ∀ port ∈ ports, (cm.portBits port.1).length = (cm.portDecl port.1).width) :
    fillPorts pm cm idef ports offset
        (front ++ List.replicate ((ports.map fun port => (cm.portDecl port.1).width).sum) .unconnected, drives) =
      (front ++ ports.flatMap (inputBlock pm cm idef), drives ++ ports.flatMap (outputBlock pm cm idef)) := by
  induction ports generalizing offset front drives with
  | nil => simp [fillPorts]
  | cons port ports ih =>
    obtain ⟨base, position⟩ := port
    have hbits := hwidth (base, position) mem_cons_self
    have hblock : (inputBlock pm cm idef (base, position)).length = (cm.portDecl base).width := length_inputBlock _
    have hrest : (cm.ports.drop (offset + (cm.portDecl base).width)).map (·.signal) =
        ports.flatMap fun port => cm.portBits port.1 := by
      rw [← drop_drop, map_drop, hports, flatMap_cons, ← hbits, drop_left]
    have hrec := @ih _ (front ++ inputBlock pm cm idef (base, position))
      (drives ++ outputBlock pm cm idef (base, position)) (by rw [length_append, hfront, hblock]) hrest
      fun port hport => hwidth port (mem_cons_of_mem _ hport)
    have hstart : front ++ replicate ((((base, position) :: ports).map fun port => (cm.portDecl port.1).width).sum)
          (PortBinding.unconnected) =
        front ++ replicate (cm.portDecl base).width .unconnected ++
          replicate ((ports.map fun port => (cm.portDecl port.1).width).sum) .unconnected := by
      rw [map_cons, sum_cons, append_assoc, replicate_append_replicate]
    have hset : (if (cm.portDecl base).dir ≠ .output then
          (resizeBits .unconnected (.literal .L) (connectionBits pm (connectionOf idef base position)).1
            (cm.portDecl base).width (connectionBits pm (connectionOf idef base position)).2).zipIdx.foldl
              (fun bs bi => bs.set (offset + bi.2) bi.1)
              (front ++ replicate (cm.portDecl base).width PortBinding.unconnected ++
                replicate ((ports.map fun port => (cm.portDecl port.1).width).sum) .unconnected)
        else front ++ replicate (cm.portDecl base).width PortBinding.unconnected ++
          replicate ((ports.map fun port => (cm.portDecl port.1).width).sum) .unconnected) =
        front ++ inputBlock pm cm idef (base, position) ++
          replicate ((ports.map fun port => (cm.portDecl port.1).width).sum) .unconnected := by
      unfold inputBlock
      split_ifs
      · exact foldl_set_zipIdx offset _ 0 front _ _ hfront (by rw [length_replicate, length_resizeBits])
      · rfl
    have hdrives : (if (cm.portDecl base).dir = .output ∨ (cm.portDecl base).dir = .inout then
          drives ++ portDrives pm cm (connectionOf idef base position) (cm.portDecl base) offset
        else drives) = drives ++ outputBlock pm cm idef (base, position) := by
      unfold outputBlock
      dsimp only
      split_ifs
      · rw [portDrives_eq (hports.trans flatMap_cons) hbits, if_pos ‹_›]
      · rw [portDrives_eq (hports.trans flatMap_cons) hbits, if_neg ‹_›]
      · rw [append_nil]
    rw [hstart, fillPorts]
    dsimp only
    rw [← CompiledModule.portDecl, hset, hdrives, hrec]
    simp only [flatMap_cons, append_assoc]

theorem PortsExpanded.signals (hcm : PortsExpanded cm) :
    cm.ports.map (·.signal) = cm.portOrder.zipIdx.flatMap fun port => cm.portBits port.1 := by
  have h := congrArg (List.map Prod.snd) hcm.ports
  rw [List.map_map, map_flatMap] at h
  rw [flatMap_zipIdx_fst]
  refine h.trans (flatMap_congr fun base _ => ?_)
  rw [List.map_map]
  exact map_id _

theorem PortsExpanded.widths (hcm : PortsExpanded cm) :
    ∀ port ∈ cm.portOrder.zipIdx, (cm.portBits port.1).length = (cm.portDecl port.1).width :=
  fun port hport => hcm.width port.1 (fst_mem_of_mem_zipIdx hport)

theorem fillBindings_eq (hcm : PortsExpanded cm) : fillBindings pm cm idef =
    (cm.portOrder.zipIdx.flatMap (inputBlock pm cm idef), cm.portOrder.zipIdx.flatMap (outputBlock pm cm idef)) := by
  have hsignals := hcm.signals
  have hwidth := hcm.widths
  have hcount : cm.ports.length = ((cm.portOrder.zipIdx.map fun port => (cm.portDecl port.1).width).sum) := by
    have h := congrArg List.length hsignals
    rw [length_map, length_flatMap] at h
    rw [h]
    exact congrArg sum (map_congr_left hwidth)
  have h := @fillPorts_eq pm cm idef cm.portOrder.zipIdx 0 [] [] rfl hsignals hwidth
  rw [nil_append, nil_append, nil_append, ← hcount] at h
  exact h

variable {conns : List (String × Option ExprValue)}

theorem connectionOf_eq
    (hconns : (∀ c ∈ conns, c.1 ≠ "") ∨ ∀ c ∈ conns, c.1 = "")
    (hidef : idef.connections = conns.map fun c => (c.1, connectionRef nodes c.2)) (base : String) (position : Nat) :
    connectionOf idef base position = connectionRef nodes (connectionFor conns base position) := by
  have hpositional (h : ∀ c ∈ conns, c.1 = "") :
      connectionOf idef base position = connectionRef nodes (connectionFor conns base position) := by
    have hnone : (idef.connections.filter fun c => c.1 ≠ "") = [] := by
      rw [hidef]
      refine filter_eq_nil_iff.mpr fun c hc => ?_
      obtain ⟨c', hc', rfl⟩ := mem_map.mp hc
      simp [h c' hc']
    rw [connectionOf, connectionFor, if_pos (all_eq_true.mpr fun c hc => decide_eq_true (h c hc))]
    rw [hnone, if_neg (fun h => h rfl), hidef, getElem?_map]
    cases conns[position]? with
    | none => rfl
    | some c => rfl
  rcases hconns with hnamed | hpos
  · match hcs : conns with
    | [] => exact hpositional fun c hc => absurd hc not_mem_nil
    | c :: cs =>
      have hall : (idef.connections.filter fun c => c.1 ≠ "") = idef.connections := by
        refine filter_eq_self.mpr fun x hx => ?_
        rw [hidef] at hx
        obtain ⟨x', hx', rfl⟩ := mem_map.mp hx
        exact decide_eq_true (hnamed x' hx')
      have hne : ¬ ((c :: cs).all fun x => decide (x.1 = "")) = true := by
        intro h
        exact hnamed c mem_cons_self (of_decide_eq_true (all_eq_true.mp h c mem_cons_self))
      rw [connectionOf, connectionFor, if_neg hne]
      rw [hall, if_pos (by rw [hidef]; exact cons_ne_nil _ _), hidef, ← map_reverse]
      generalize (c :: cs).reverse = rs
      induction rs with
      | nil => rfl
      | cons x rs ih =>
        rw [map_cons, List.lookup_cons, List.lookup_cons]
        cases base == x.1 with
        | true => rfl
        | false => exact ih
  · exact hpositional hpos

variable {β γ : Type} {xs : List β} {f : β → List γ}

theorem zip_flatMap {δ : Type} {g : β → List δ} (h : ∀ x ∈ xs, (f x).length = (g x).length) :
    (xs.flatMap f).zip (xs.flatMap g) = xs.flatMap fun x => (f x).zip (g x) := by
  induction xs with
  | nil => rfl
  | cons x xs ih =>
    rw [flatMap_cons, flatMap_cons, flatMap_cons, zip_append (h x mem_cons_self),
      ih fun y hy => h y (mem_cons_of_mem _ hy)]

theorem blocks_eq_of_flatMap_eq {g : β → List γ} (h : ∀ x ∈ xs, (f x).length = (g x).length)
    (heq : xs.flatMap f = xs.flatMap g) : ∀ x ∈ xs, f x = g x := by
  induction xs with
  | nil => exact fun x hx => absurd hx not_mem_nil
  | cons x xs ih =>
    rw [flatMap_cons, flatMap_cons] at heq
    obtain ⟨hhead, htail⟩ := append_inj heq (h x mem_cons_self)
    intro y hy
    rcases mem_cons.mp hy with rfl | hy
    · exact hhead
    · exact ih (fun z hz => h z (mem_cons_of_mem _ hz)) htail y hy

def referenceSigned (pm : CompiledModule) (v : ExprValue) : Bool :=
  ((bareSignal pm.exprNodes v).map fun s => pm.signalIsSigned.getD s false).getD v.isSigned

def boundValue (pm : CompiledModule) (values : List LogicT) (w : Nat) : Option ExprValue → List LogicT
  | none => List.replicate w .X
  | some v =>
    if v.roots = [] then List.replicate w .X else resizeVals (referenceSigned pm v) w (valuesOf pm.exprNodes values v)

theorem map_inputBlock {parent : InstanceNode} (hmod : parent.mod = pm) {port : String × Nat} {e : Option ExprValue}
    (hdir : (cm.portDecl port.1).dir ≠ .output) (he : connectionOf idef port.1 port.2 = connectionRef pm.exprNodes e) :
    (inputBlock pm cm idef port).map (bindingValue parent) =
      boundValue pm parent.state.values (cm.portDecl port.1).width e := by
  have habsent : (resizeBits PortBinding.unconnected (.literal .L) [] (cm.portDecl port.1).width false).map
    (bindingValue parent) =
      replicate (cm.portDecl port.1).width .X := by
    rw [resizeBits, map_replicate]
    rfl
  rw [inputBlock, if_pos hdir, he]
  dsimp only
  match e with
  | none => exact habsent
  | some v =>
    dsimp only [connectionRef, Option.map_some, Option.getD_some]
    rw [boundValue]
    by_cases hroots : v.roots = []
    · rw [if_pos hroots]
      have href : parseConnectionRef pm.exprNodes v = .unconnected := by rw [parseConnectionRef, hroots]
      rw [href]
      exact habsent
    · have hvalues := map_connectionBits hmod v
      have hne : (connectionBits pm (parseConnectionRef pm.exprNodes v)).1 ≠ [] := by
        intro h
        rw [h] at hvalues
        exact hroots (map_eq_nil_iff.mp hvalues.symm)
      rw [if_neg hroots, map_resizeBits rfl hne, hvalues, signed_connectionBits v hroots]
      rfl

theorem mem_resizeBits {absent zero : β} {src : List β} {sgn : Bool} {x : β}
    (hx : x ∈ resizeBits absent zero src w sgn) : x ∈ src ∨ x = absent ∨ x = zero := by
  unfold resizeBits at hx
  split at hx
  · exact Or.inr (Or.inl (eq_of_mem_replicate hx))
  · rename_i msb rest
    by_cases h : w ≤ (msb :: rest).length
    · rw [if_pos h] at hx
      exact Or.inl (mem_of_mem_drop hx)
    · rw [if_neg h] at hx
      rcases mem_append.mp hx with hx | hx
      · have heq := eq_of_mem_replicate hx
        cases sgn with
        | false => exact Or.inr (Or.inr heq)
        | true => exact Or.inl (heq ▸ mem_cons_self)
      · exact Or.inl hx

/-- The destinations of a reference are the signals of the expression, but for expressions
without any. -/
theorem connectionDestBits_eq (e : Option ExprValue) :
    connectionDestBits pm (connectionRef pm.exprNodes e) = connectionSignals pm.exprNodes e ∨
      connectionDestBits pm (connectionRef pm.exprNodes e) = [] ∧ ∀ s ∈ connectionSignals pm.exprNodes e, s = none := by
  match e with
  | none => exact Or.inl rfl
  | some v =>
    have hnone {r : Nat} {b : LogicT} (hb : literalAt pm.exprNodes r = some b) : signalAt pm.exprNodes r = none := by
      rw [literalAt_eq_some] at hb
      rw [signalAt, hb]
    dsimp only [connectionRef, Option.map_some, Option.getD_some]
    rw [parseConnectionRef, connectionSignals]
    generalize v.roots = roots
    match roots with
    | [] => exact Or.inl rfl
    | [root] =>
      dsimp only
      cases hroot : pm.exprNodes[root]? with
      | none =>
        left
        simp [literalAt, signalAt, hroot, connectionDestBits]
      | some n =>
        cases n with
        | signal s =>
          left
          simp [literalAt, signalAt, hroot, connectionDestBits]
        | literal b =>
          right
          simp [literalAt, signalAt, hroot, connectionDestBits]
        | _ =>
          left
          simp [literalAt, signalAt, hroot, connectionDestBits]
    | r :: r' :: rest =>
      dsimp only
      split_ifs with hlit hsimple hsimple
      · refine Or.inr ⟨rfl, fun s hs => ?_⟩
        obtain ⟨q, hq, rfl⟩ := mem_map.mp hs
        obtain ⟨b, hb⟩ := Option.isSome_iff_exists.mp (all_eq_true.mp hlit q hq)
        exact hnone hb
      · exact Or.inr ⟨rfl, fun s hs => absurd hs not_mem_nil⟩
      · left
        rw [connectionDestBits, List.map_map]
        refine map_congr_left fun q _ => ?_
        rw [Function.comp_apply]
        cases signalAt pm.exprNodes q <;> rfl
      · exact Or.inl rfl

theorem map_outputBlock {child : InstanceNode} {port : String × Nat}
    (he : connectionOf idef port.1 port.2 = connectionRef pm.exprNodes (connectionFor conns port.1 port.2))
    (hbits : cm.portBits port.1 ≠ []) (hindex : ∀ c ∈ cm.portBits port.1, c < sizeMax ∧ c < child.state.values.length) :
    ((outputBlock pm cm idef port).map fun d => (d.parentSignal, d.source child)) =
      portOutput pm cm conns child port := by
  rw [outputBlock, portOutput, he]
  by_cases hdir : (cm.portDecl port.1).dir = .output ∨ (cm.portDecl port.1).dir = .inout
  · rw [if_pos hdir, if_pos hdir]
    dsimp only
    generalize connectionFor conns port.1 port.2 = e
    rcases @connectionDestBits_eq pm e with hdst | ⟨hdst, hnone⟩
    · rw [hdst]
      generalize connectionSignals pm.exprNodes e = dst
      have hvalues : (resizeBits (.inr .X) (.inr .L) ((cm.portBits port.1).map Sum.inl) dst.length
          (cm.portDecl port.1).isSigned).map (Sum.elim child.get id) =
            resizeVals (cm.portDecl port.1).isSigned dst.length ((cm.portBits port.1).map child.get) := by
        have h := @map_resizeBits (Nat ⊕ LogicT) (Sum.elim child.get id) (.inr .X) (.inr .L) rfl
          ((cm.portBits port.1).map Sum.inl) (fun h => hbits (map_eq_nil_iff.mp h)) dst.length
            (cm.portDecl port.1).isSigned
        rw [List.map_map] at h
        exact h
      have hmem : ∀ c, (Sum.inl c : Nat ⊕ LogicT) ∈
        resizeBits (.inr .X) (.inr .L) ((cm.portBits port.1).map Sum.inl) dst.length
          (cm.portDecl port.1).isSigned → c < sizeMax ∧ c < child.state.values.length := by
        intro c hc
        rcases mem_resizeBits hc with hc | hc | hc
        · obtain ⟨c', hc', heq⟩ := mem_map.mp hc
          exact Sum.inl.inj heq ▸ hindex c' hc'
        · cases hc
        · cases hc
      rw [← hvalues]
      by_cases hnil : dst = []
      · rw [if_pos hnil, hnil]
        rfl
      · rw [if_neg hnil, zip_map_right, filterMap_map, map_filterMap]
        refine filterMap_congr fun sb hsb => ?_
        obtain ⟨s, b⟩ := sb
        have hb := (of_mem_zip hsb).2
        cases s with
        | none => rfl
        | some s =>
          cases b with
          | inl c =>
            obtain ⟨hmax, hlt⟩ := hmem c hb
            have hdrive : bitDrive (some s, .inl c) = some { parentSignal := s, childSignal := c } :=
              if_neg (Nat.ne_of_lt hmax)
            rw [hdrive]
            simp [PortDrive.source, hlt]
          | inr v => rfl
    · rw [if_pos hdst]
      symm
      refine filterMap_eq_nil_iff.mpr fun sv hsv => ?_
      rw [hnone sv.1 (of_mem_zip hsv).1]
      rfl
  · rw [if_neg hdir, if_neg hdir]
    rfl

end Loop

section Main

variable {pm cm : CompiledModule} {conns : List (String × Option ExprValue)} {idef : InstanceDef}

/-- The connections of input ports wider than one bit that are bare signals have the sign
their signal is declared with. -/
def BareSigns (pm cm : CompiledModule) (conns : List (String × Option ExprValue)) : Prop :=
  ∀ port ∈ cm.portOrder.zipIdx, (cm.portDecl port.1).dir ≠ .output → 1 < (cm.portDecl port.1).width →
    ∀ v s, connectionFor conns port.1 port.2 = some v → bareSignal pm.exprNodes v = some s →
      pm.signalIsSigned.getD s false = v.isSigned

variable {v : ExprValue}

theorem bareSignal_eq_some (h : bareSignal nodes v = some s) :
    ∃ r, v.roots = [r] ∧ nodes[r]? = some (.signal s) := by
  unfold bareSignal at h
  split at h
  · rename_i r hr
    exact ⟨r, hr, signalAt_eq_some.mp h⟩
  · cases h

theorem resizeVals_one (sgn sgn' : Bool) (hw : w ≤ 1) (x : LogicT) : resizeVals sgn w [x] = resizeVals sgn' w [x] := by
  have hpad : w - [x].length = 0 := Nat.sub_eq_zero_of_le hw
  rw [resizeVals, resizeVals, hpad]
  rfl

theorem boundValue_eq {e : Option ExprValue}
    (h : 1 < w → ∀ v s, e = some v → bareSignal pm.exprNodes v = some s → pm.signalIsSigned.getD s false = v.isSigned) :
    boundValue pm values w e = connectionValue pm values w e := by
  match e with
  | none => rfl
  | some v =>
    rw [boundValue, connectionValue]
    cases hbare : bareSignal pm.exprNodes v with
    | none =>
      rw [referenceSigned, hbare]
      rfl
    | some s =>
      obtain ⟨r, hroots, -⟩ := bareSignal_eq_some hbare
      rw [referenceSigned, hbare, valuesOf, hroots]
      by_cases hw : 1 < w
      · rw [Option.map_some, Option.getD_some, h hw v s rfl hbare]
      · rw [map_cons, map_nil, resizeVals_one _ v.isSigned (Nat.le_of_not_lt hw)]

theorem boundValue_ne (hw : 1 < w) (hbare : bareSignal pm.exprNodes v = some s)
    (hsign : pm.signalIsSigned.getD s false ≠ v.isSigned) (hs : values.getD s .X = .H) :
    boundValue pm values w (some v) ≠ connectionValue pm values w (some v) := by
  obtain ⟨r, hroots, hr⟩ := bareSignal_eq_some hbare
  have hvalues : valuesOf pm.exprNodes values v = [.H] := by
    rw [valuesOf, hroots, map_cons, map_nil, rootVal_signal hr, hs]
  have hhead (sgn : Bool) : (resizeVals sgn w [LogicT.H]).head? = some (if sgn then .H else .L) := by
    obtain ⟨k, rfl⟩ : ∃ k, w = k + 2 := ⟨w - 2, by omega⟩
    rw [resizeVals, if_neg (by simp)]
    rfl
  have hne : ¬ v.roots = [] := by
    rw [hroots]
    exact cons_ne_nil _ _
  rw [boundValue, connectionValue, if_neg hne, if_neg hne, hvalues]
  intro heq
  have hfirst := congrArg head? heq
  rw [hhead, hhead, referenceSigned, hbare, Option.map_some, Option.getD_some] at hfirst
  revert hfirst hsign
  cases pm.signalIsSigned.getD s false <;> cases v.isSigned <;> decide

theorem map_ports_zip (hcm : PortsExpanded cm) (parent : InstanceNode) :
    ((cm.ports.zip (cm.portOrder.zipIdx.flatMap (inputBlock pm cm idef))).map fun qb =>
      (qb.1.signal, bindingValue parent qb.2)) =
      cm.portOrder.zipIdx.flatMap fun port =>
        (cm.portBits port.1).zip ((inputBlock pm cm idef port).map (bindingValue parent)) := by
  have hzip : (cm.ports.map (·.signal)).zip
      ((cm.portOrder.zipIdx.flatMap (inputBlock pm cm idef)).map (bindingValue parent)) = _ := zip_map
  rw [hcm.signals, map_flatMap, zip_flatMap] at hzip
  · exact hzip.symm
  · intro port hport
    rw [hcm.widths port hport, length_map, length_inputBlock]

theorem exists_port_of_mem_zip (hcm : PortsExpanded cm) {qb : Port × PortBinding}
    (h : qb ∈ cm.ports.zip (cm.portOrder.zipIdx.flatMap (inputBlock pm cm idef))) :
    ∃ port ∈ cm.portOrder.zipIdx, ((qb.1.dir, qb.1.signal), qb.2) ∈
      ((cm.portBits port.1).map fun s => ((cm.portDecl port.1).dir, s)).zip (inputBlock pm cm idef port) := by
  have hblocks : (cm.ports.map fun q => (q.dir, q.signal)).zip (cm.portOrder.zipIdx.flatMap (inputBlock pm cm idef)) =
      cm.portOrder.zipIdx.flatMap fun port =>
        ((cm.portBits port.1).map fun s => ((cm.portDecl port.1).dir, s)).zip (inputBlock pm cm idef port) := by
    rw [hcm.ports, ← flatMap_zipIdx_fst _ cm.portOrder 0, zip_flatMap]
    intro port hport
    rw [length_map, hcm.widths port hport, length_inputBlock]
  have hmem : ((qb.1.dir, qb.1.signal), qb.2) ∈
      (cm.ports.map fun q => (q.dir, q.signal)).zip (cm.portOrder.zipIdx.flatMap (inputBlock pm cm idef)) := by
    rw [zip_map_left]
    exact mem_map.mpr ⟨qb, h, rfl⟩
  rw [hblocks] at hmem
  exact mem_flatMap.mp hmem

theorem length_portInput (values : List LogicT) (port : String × Nat) :
    (portInput pm cm conns values port).length = (cm.portDecl port.1).width := by
  unfold portInput
  split_ifs
  · exact length_replicate
  · unfold connectionValue
    split
    · exact length_replicate
    · split_ifs
      · exact length_replicate
      · exact length_resizeVals _ _ _

/-- `fill_bindings` does what the connections are to do, if and only if every input port
wider than one bit that is connected to a bare signal has a connection with the sign of the
signal. -/
theorem fillBindings_iff (hcm : PortsExpanded cm) (hconns : (∀ c ∈ conns, c.1 ≠ "") ∨ ∀ c ∈ conns, c.1 = "")
    (hidef : idef.connections = conns.map fun c => (c.1, connectionRef pm.exprNodes c.2)) :
    BindsAsAssigned pm cm conns (fillBindings pm cm idef) ↔ BareSigns pm cm conns := by
  rw [fillBindings_eq hcm]
  have hlength : (cm.portOrder.zipIdx.flatMap (inputBlock pm cm idef)).length = cm.ports.length := by
    have hcount := congrArg List.length hcm.signals
    rw [List.length_map, List.length_flatMap] at hcount
    rw [hcount, List.length_flatMap]
    exact congrArg List.sum (List.map_congr_left fun port hport =>
      (length_inputBlock port).trans (hcm.widths port hport).symm)
  constructor
  · intro h port hport hdir hw v s he hbare
    by_contra hsign
    -- in a parent where the signal is high the two signs give different values
    let parent : InstanceNode := { mod := pm, state := { values := List.replicate (s + 1) .H } }
    have hhigh : parent.state.values.getD s .X = .H := by simp [parent]
    have hblocks : (cm.portBits port.1).zip ((inputBlock pm cm idef port).map (bindingValue parent)) =
        (cm.portBits port.1).zip (portInput pm cm conns parent.state.values port) := by
      refine blocks_eq_of_flatMap_eq (fun port hport => ?_)
        ((map_ports_zip hcm parent).symm.trans (h.inputs parent rfl)) port hport
      rw [List.length_zip, List.length_zip, List.length_map, length_inputBlock, length_portInput]
    have hvalues := congrArg (List.map Prod.snd) hblocks
    rw [List.map_snd_zip (by rw [List.length_map, length_inputBlock, hcm.widths port hport]),
      List.map_snd_zip (by rw [length_portInput, hcm.widths port hport]),
      map_inputBlock rfl hdir (connectionOf_eq hconns hidef _ _), portInput, if_neg hdir, he] at hvalues
    exact boundValue_ne hw hbare hsign hhigh hvalues
  · intro h
    refine ⟨hlength, fun parent hmod => ?_, fun qb hqb hdir => ?_, fun child hmod hrange => ?_⟩
    · rw [map_ports_zip hcm parent]
      refine List.flatMap_congr fun port hport => congrArg _ ?_
      rw [portInput]
      by_cases hdir : (cm.portDecl port.1).dir = .output
      · rw [if_pos hdir, inputBlock, if_neg (fun hne => hne hdir), List.map_replicate]
        rfl
      · rw [if_neg hdir, map_inputBlock hmod hdir (connectionOf_eq hconns hidef _ _)]
        exact boundValue_eq fun hw v s he hbare => h port hport hdir hw v s he hbare
    · obtain ⟨port, hport, hmem⟩ := exists_port_of_mem_zip hcm hqb
      obtain ⟨hfst, hsnd⟩ := List.of_mem_zip hmem
      obtain ⟨c, -, hc⟩ := List.mem_map.mp hfst
      have hout : (cm.portDecl port.1).dir = .output := (congrArg Prod.fst hc).trans hdir
      rw [inputBlock, if_neg (fun hne => hne hout)] at hsnd
      exact List.eq_of_mem_replicate hsnd
    · rw [List.map_flatMap]
      refine List.flatMap_congr fun port hport => ?_
      refine map_outputBlock (connectionOf_eq hconns hidef _ _) (fun hnil => ?_) fun c hc => ?_
      · have hwidth := hcm.widths port hport
        have hpos := port_width_pos (cm.portDecl port.1)
        rw [hnil, List.length_nil] at hwidth
        omega
      · have hsignal : c ∈ cm.ports.map (·.signal) := by
          rw [hcm.signals]
          exact List.mem_flatMap.mpr ⟨port, hport, hc⟩
        obtain ⟨q, hq, rfl⟩ := List.mem_map.mp hsignal
        exact ⟨hcm.indices q hq, hrange q hq⟩

end Main

namespace Connections

def child : CompiledModule where
  ports := [⟨"p[1]", .input, 0⟩, ⟨"p[0]", .input, 1⟩, ⟨"q", .output, 2⟩]
  portOrder := ["p", "q"]
  portDecls := [("p", { dir := .input, hasRange := true, msb := 1 }), ("q", { dir := .output })]
  vectors := [("p", { msb := 1, bits := [0, 1] })]
  signalNames := ["p[1]", "p[0]", "q"]
  signalIndex := [("p[1]", 0), ("p[0]", 1), ("q", 2)]
  operands_first := operandsFirst_nil

def parent : CompiledModule where
  vectors := [("y", { msb := 1, bits := [1, 2] })]
  signalNames := ["s", "y[1]", "y[0]"]
  signalIsSigned := [true, false, false]
  exprNodes := [.signal 0, .signal 1, .signal 2]

theorem portsExpanded_child : PortsExpanded child := by
  refine ⟨by decide, by decide, by decide⟩

def connectedTo (e : ExprValue) : List (String × Option ExprValue) :=
  [("q", some { isVector := true, vectorRoots := [1, 2], msb := 1 }), ("p", some e)]

def instanceOf (e : ExprValue) : InstanceDef where
  moduleName := "child"
  instanceName := "u"
  connections := (connectedTo e).map fun c => (c.1, connectionRef parent.exprNodes c.2)

/-- `child u(.q(y), .p(s));`. -/
theorem fillBindings_iff_child : BindsAsAssigned parent child (connectedTo (makeScalar 0 0 0 true))
    (fillBindings parent child (instanceOf (makeScalar 0 0 0 true))) := by
  refine (fillBindings_iff portsExpanded_child (Or.inl (by decide)) rfl).mpr ?_
  intro port hport hdir hw v s he hbare
  have hport : port = ("p", 0) ∨ port = ("q", 1) := by
    simpa [child] using hport
  rcases hport with rfl | rfl
  · obtain rfl : makeScalar 0 0 0 true = v := Option.some.inj he
    obtain rfl : 0 = s := Option.some.inj hbare
    rfl
  · exact absurd rfl hdir

/-- `child u(.q(y), .p({s}));` extends the concatenation by the sign of `s`. -/
theorem concatenation_sign_extended : ¬ BindsAsAssigned parent child (connectedTo (makeScalar 0 0 0 false))
    (fillBindings parent child (instanceOf (makeScalar 0 0 0 false))) := by
  intro h
  have hhigh := h.inputs { mod := parent, state := { values := [.H, .L, .L] } } rfl
  revert hhigh
  decide

end Connections

end PhyEngine.Verilog
