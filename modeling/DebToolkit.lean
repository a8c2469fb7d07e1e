import DebToolkit.Seccomp
import DebToolkit.Solver.Portfolio
import DebToolkit.Solver.Learnt
import DebToolkit.Resolver.Determinism
import DebToolkit.Resolver.Versioned
import DebToolkit.Resolver.Advice
import DebToolkit.Resolver.Relation
import DebToolkit.Cli.Update
import DebToolkit.Cli.Cache
import DebToolkit.Cli.Install
import DebToolkit.Transport.Truncated
import DebToolkit.Transport.PatchUrl
import DebToolkit.Transport.Signed
import DebToolkit.Transport.HttpErrors
import DebToolkit.Transport.Failover
import DebToolkit.Version.Parse
import DebToolkit.Version.Reference
import DebToolkit.Control.Binary
import DebToolkit.Dpkg.Updates
import DebToolkit.Dpkg.Concurrent
import DebToolkit.Dpkg.Failure
import DebToolkit.Dpkg.TriggerDir
import DebToolkit.Dpkg.Crash
import DebToolkit.Sources.Convert
import DebToolkit.Sources.LineEndings
import DebToolkit.Sources.CommentFields
import DebToolkit.Conf.Nested
import DebToolkit.Conf.Includes
import DebToolkit.Conf.Graph
import DebToolkit.Deb.Extract
import DebToolkit.Deb.Symmetry
import DebToolkit.Deb.Aligned
import DebToolkit.Deb.Unpack
import DebToolkit.Keyring.Files
import DebToolkit.Sandbox.Progress
import DebToolkit.Sandbox.Scripts
