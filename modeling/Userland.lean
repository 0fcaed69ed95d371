import Userland.AutoInstall.QueryStructure
import Userland.AutoInstall.RangeOrder
import Userland.AutoInstall.StoredIPv4
import Userland.Install.DataObject.Delete
import Userland.Install.DataObject.Descendants
import Userland.Install.DataObject.References
import Userland.Install.DataObject.XmlTree
import Userland.Install.Engine.ProgressEnds
import Userland.Install.Engine.Resume
import Userland.Install.Mim.Branches
import Userland.Install.Mim.ParentPath
import Userland.Install.Mim.RemoveComments
import Userland.Install.Target.GapsFilled
import Userland.Install.Target.Vdevs
import Userland.Install.Target.Zpools
import Userland.Install.TargetController.Selection
import Userland.Install.TargetController.SwapDump
import Userland.Install.TargetSelection.UnnamedPartitions
import Userland.Js2ai.IpAddress
import Userland.Library.Growing
import Userland.ModSed.Filter
import Userland.ModSed.ListCommand
import Userland.ModSed.Ranges
import Userland.ModSed.Script
import Userland.ModSed.Spaces
import Userland.Pkg.Actions.Action
import Userland.Pkg.Catalog.Append
import Userland.Pkg.Catalog.LazyActions
import Userland.Pkg.Catalog.MatchingFmris
import Userland.Pkg.Cfg.Group
import Userland.Pkg.Cfg.Userattr
import Userland.Pkg.Facets
import Userland.Pkg.FileLayout.Interleaved
import Userland.Pkg.Flyweight.History
import Userland.Pkg.Manifest.Content
import Userland.Pkg.Manifest.Duplicates
import Userland.Pkg.Manifest.Faithful
import Userland.Pkg.Publish.FindPackage
import Userland.Pkg.Publish.Preserved
import Userland.Pkg.Publish.Resolution
import Userland.Pkg.Publish.Widening
import Userland.Pkg.Publisher.Origins
import Userland.Pkg.Search.InvertedDict
import Userland.Pkg.Search.ListDict
import Userland.Pkg.Search.MainDict
import Userland.Pkg.Search.UpdateLog
import Userland.Pkg.Solver.ImageRuns
import Userland.Pkg.Solver.Optimality
import Userland.Pkg.Solver.Uninstall
import Userland.Pkg.Solver.Unparseable
import Userland.Pkg.Variant.Satisfaction
import Userland.Pkg.Versions.Agreement
import Userland.Pkg.Versions.Matchers
import Userland.Pkg.Versions.Policies
import Userland.Project.Continued
import Userland.Project.RctlLiteral
import Userland.X11.GB18030.Charsets
import Userland.X11.GB18030.Inside
