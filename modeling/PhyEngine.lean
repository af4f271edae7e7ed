import PhyEngine.Circuit.ClockEdge
import PhyEngine.Circuit.Comparators
import PhyEngine.Circuit.FloatingSubnet
import PhyEngine.Circuit.Restart
import PhyEngine.FileFormat.ArchiveChecks
import PhyEngine.FileFormat.AttributeBlob
import PhyEngine.FileFormat.CheckpointMap
import PhyEngine.Netlist.CopyFaithful
import PhyEngine.Netlist.MergeNode
import PhyEngine.Netlist.WireNets
import PhyEngine.PhyLab.AutoLayout
import PhyEngine.PhyLab.RoundTrip
import PhyEngine.Synth.Absorption
import PhyEngine.Synth.Accept
import PhyEngine.Synth.AdderRuns
import PhyEngine.Synth.AsyncRuns
import PhyEngine.Synth.BddNet
import PhyEngine.Synth.BoundedPasses
import PhyEngine.Synth.ConeKernels
import PhyEngine.Synth.ConstProp
import PhyEngine.Synth.DoubleNot
import PhyEngine.Synth.EspressoSteps
import PhyEngine.Synth.GreedyCorner
import PhyEngine.Synth.Inverters
import PhyEngine.Synth.Mul2
import PhyEngine.Synth.MultiDriver
import PhyEngine.Synth.Omax
import PhyEngine.Synth.OneHot
import PhyEngine.Synth.Petrick
import PhyEngine.Synth.Strash
import PhyEngine.Synth.YesBuffers
import PhyEngine.Verilog.AssignWidth
import PhyEngine.Verilog.CaseSelect
import PhyEngine.Verilog.Connections
import PhyEngine.Verilog.ControlFlow
import PhyEngine.Verilog.ExprPrecedence
import PhyEngine.Verilog.Initials
import PhyEngine.Verilog.InoutNets
import PhyEngine.Verilog.Interning
import PhyEngine.Verilog.MacroUses
import PhyEngine.Verilog.Relex
import PhyEngine.Verilog.SelectAtomic
import PhyEngine.Verilog.Sensitivity
